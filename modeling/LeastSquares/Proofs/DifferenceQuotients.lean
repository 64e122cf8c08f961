/-
  LeastSquares/Proofs/DifferenceQuotients.lean
  ============================================
  **Difference quotients of quadratic functions.**

  Where the components of a function are polynomials of degree two at most, a central difference quotient is
  the partial derivative, whatever the step: the squares of the step cancel.  A forward quotient is off by
  half the step times the second partial derivative, which is zero for an affine function.  A function of
  several variables is differenced in one of them with the others held, so that each matrix consists of the
  columns of its variable.
-/
import LeastSquares.Proofs.ArrayDerivatives
import LeastSquares.Proofs.QuadraticPolynomials

namespace LeastSquares

open MvPolynomial (eval pderiv)

/-! ### Slopes -/

section Slopes

variable {m n : ℕ} {f : VecFunction ℝ} {g : (Fin n → ℝ) → Fin m → ℝ}

/-- The difference quotient of a function between real spaces, in one coordinate and for one component. -/
noncomputable def Difference.slope (side : Difference) (g : (Fin n → ℝ) → Fin m → ℝ) (y : Fin n → ℝ) (h : ℝ)
    (i : Fin m) (j : Fin n) : ℝ :=
  match side with
  | forward => (g (Function.update y j (y j + h)) i - g y i) / h
  | central => (g (Function.update y j (y j + h)) i - g (Function.update y j (y j + -h)) i) / (h + h)

theorem Difference.quotient_ofFn (hf : ∀ u, f (List.ofFn u) = .ok (List.ofFn (g u))) (side : Difference)
    (y : Fin n → ℝ) (h : ℝ) (j : Fin n) :
    side.quotient f (List.ofFn (g y)) (List.ofFn y) h j = .ok (List.ofFn fun i => side.slope g y h i j) := by
  have two : (2.0 : ℝ) * h = h + h := by norm_num [two_mul]
  cases side with
  | forward =>
    simp only [quotient, Vec.addAt_ofFn, hf, Vec.combine_sub_ofFn, bind, Except.bind, List.map_ofFn]
    rfl
  | central =>
    simp only [quotient, Vec.addAt_ofFn, hf, Vec.combine_sub_ofFn, bind, Except.bind, two, List.map_ofFn]
    rfl

theorem Derivative.column_of_length_eq {height : ℕ} {entries : Vec ℝ} (h : entries.length = height) :
    column height entries = .ok entries := by
  rw [column, Elimination.stretch_of_length_eq h, if_pos h]

theorem mapM_range_eq_ok {β : Type} {step : ℕ → Except Error β} {c : Fin n → β}
    (h : ∀ j : Fin n, step j = .ok (c j)) : (List.range n).mapM step = .ok (List.ofFn c) := by
  rw [mapM_eq_ok_iff, List.forall₂_iff_get]
  refine ⟨by simp, fun j hj hj' => ?_⟩
  simpa using h ⟨j, by simpa using hj⟩

/-- The matrix of the difference quotients of a function between real spaces. -/
theorem Derivative.jacobian_ofFn (hf : ∀ u, f (List.ofFn u) = .ok (List.ofFn (g u))) (side : Difference)
    (y : Fin n → ℝ) (h : ℝ) :
    jacobian side f (List.ofFn y) h = .ok (.ofMatrix (side.slope g y h)) := by
  have hcolumns : (List.range n).mapM (fun place => do
        let entries ← side.quotient f (List.ofFn (g y)) (List.ofFn y) h place
        column (List.ofFn (g y)).length entries) =
      .ok (List.ofFn fun j => List.ofFn fun i => side.slope g y h i j) := mapM_range_eq_ok fun j => by
    rw [Difference.quotient_ofFn hf]
    exact column_of_length_eq (by simp)
  have hrows : (List.range m).map (fun i =>
        (List.ofFn fun j => List.ofFn fun i => side.slope g y h i j).map (·.getD i 0)) =
      List.ofFn fun i => List.ofFn (side.slope g y h i) := by
    refine List.ext_getElem (by simp) fun i hi hi' => ?_
    rw [List.length_ofFn] at hi'
    simp [List.getD_eq_getElem?_getD, hi', Function.comp_def]
  simp only [jacobian, hf, List.length_ofFn, bind, Except.bind] at hcolumns ⊢
  rw [hcolumns]
  simp only [hrows]
  rfl

end Slopes

/-! ### Slopes of polynomials -/

section Polynomials

variable {σ : Type} {m n : ℕ} {p : Fin m → MvPolynomial σ ℝ} {place : Fin n → σ}

/-- The Jacobian matrix of polynomials: a row for each of them and a column for each variable. -/
noncomputable def partials (p : Fin m → MvPolynomial σ ℝ) (x : σ → ℝ) : Matrix (Fin m) σ ℝ :=
  fun i c => eval x (pderiv c (p i))

/-- The second derivatives of polynomials, each in one variable. -/
noncomputable def secondPartials (p : Fin m → MvPolynomial σ ℝ) (x : σ → ℝ) : Matrix (Fin m) σ ℝ :=
  fun i c => eval x (pderiv c (pderiv c (p i)))

theorem secondPartials_eq_zero (hp : ∀ i, (p i).totalDegree ≤ 1) (x : σ → ℝ) : secondPartials p x = 0 :=
  funext fun i => funext fun c => eval_pderiv_pderiv_eq_zero (hp i) c x

/-- **The central quotients of quadratic polynomials are their partial derivatives**, whatever the step. -/
theorem central_slope_eq (hplace : place.Injective) (base : σ → ℝ) (hp : ∀ i, (p i).totalDegree ≤ 2)
    (y : Fin n → ℝ) {h : ℝ} (hne : h ≠ 0) :
    Difference.central.slope (fun u i => eval (Function.extend place u base) (p i)) y h =
      (partials p (Function.extend place y base)).submatrix id place := by
  funext i j
  simp only [Difference.slope, eval_extend_update hplace base y (hp i), partials, Matrix.submatrix_apply, id]
  field_simp
  ring

/-- **The forward quotients of quadratic polynomials** are off by half the step times the second derivatives. -/
theorem forward_slope_eq (hplace : place.Injective) (base : σ → ℝ) (hp : ∀ i, (p i).totalDegree ≤ 2)
    (y : Fin n → ℝ) {h : ℝ} (hne : h ≠ 0) :
    Difference.forward.slope (fun u i => eval (Function.extend place u base) (p i)) y h =
      (partials p (Function.extend place y base) +
        (h / 2) • secondPartials p (Function.extend place y base)).submatrix id place := by
  funext i j
  simp only [Difference.slope, eval_extend_update hplace base y (hp i), partials, secondPartials,
    Matrix.submatrix_apply, Matrix.add_apply, Matrix.smul_apply, smul_eq_mul, id]
  field_simp
  ring

/-- The partial derivatives in the variables that move are the derivative, with the others held. -/
theorem hasFDerivAt_partials (hplace : place.Injective) (base : σ → ℝ) (y : Fin n → ℝ) :
    HasFDerivAt (fun u i => eval (Function.extend place u base) (p i))
      (Matrix.toLin' ((partials p (Function.extend place y base)).submatrix id place)).toContinuousLinearMap y :=
  hasFDerivAt_of_rows fun i => hasFDerivAt_eval hplace base (p i) y

end Polynomials

/-! ### Functions of vectors -/

namespace Derivative

variable {m n : ℕ}

/-- The matrix of the difference quotients of a function of arrays that is one between real spaces. -/
theorem ofFunction_ofFn {name : String} {side : Difference} (hname : Difference.named name = .ok side)
    {f : ArrayFunction ℝ} {g : (Fin n → ℝ) → Fin m → ℝ}
    (hf : ∀ u, f (.ofVector (List.ofFn u)) = .ok (.ofVector (List.ofFn (g u)))) (y : Fin n → ℝ) (h : ℝ) :
    ofFunction name f (.ofVector (List.ofFn y)) (.real h) = .ok (.ofMatrix (side.slope g y h)) := by
  let f' : VecFunction ℝ := fun u => (f (.ofVector u)).map (·.data)
  have hf' : ∀ u, f' (List.ofFn u) = .ok (List.ofFn (g u)) := fun u => by
    simp only [f', hf]
    rfl
  have hacts : ActsAs f f' (List.ofFn y).length := fun u hu => by
    obtain ⟨v, rfl⟩ := Vec.exists_ofFn (hu.trans List.length_ofFn)
    rw [hf, hf']
    rfl
  rw [ofFunction_ofVector hname hacts, jacobian_ofFn hf']

/-- The components of a function of vectors are polynomials. -/
def IsPolynomial (f : ArrayFunction ℝ) (p : Fin m → MvPolynomial (Fin n) ℝ) : Prop :=
  ∀ u : Fin n → ℝ, f (.ofVector (List.ofFn u)) = .ok (.ofVector (List.ofFn fun i => eval u (p i)))

section

variable {f : ArrayFunction ℝ} {p : Fin m → MvPolynomial (Fin n) ℝ}

theorem IsPolynomial.isDerivativeAt (hf : IsPolynomial f p) (y : Fin n → ℝ) :
    (Mat.ofMatrix (partials p y)).IsDerivativeAt (fun u => f (.ofVector u)) (List.ofFn y) := by
  have hderivative := hasFDerivAt_partials (p := p) Function.injective_id y y
  simp only [Function.extend_id] at hderivative
  exact ⟨m, n, _, y, partials p y, rfl, rfl, hf, hderivative⟩

/-- The central quotients of a quadratic function are its derivative. -/
theorem IsPolynomial.central (hf : IsPolynomial f p) (hp : ∀ i, (p i).totalDegree ≤ 2) (y : Fin n → ℝ)
    {h : ℝ} (hne : h ≠ 0) :
    ofFunction "central" f (.ofVector (List.ofFn y)) (.real h) = .ok (.ofMatrix (partials p y)) := by
  have hslope := central_slope_eq Function.injective_id y hp y hne
  simp only [Function.extend_id] at hslope
  rw [ofFunction_ofFn rfl hf, hslope]
  rfl

/-- The forward quotients of a quadratic function are off by half the step times the second derivatives. -/
theorem IsPolynomial.forward (hf : IsPolynomial f p) (hp : ∀ i, (p i).totalDegree ≤ 2) (y : Fin n → ℝ)
    {h : ℝ} (hne : h ≠ 0) :
    ofFunction "forward" f (.ofVector (List.ofFn y)) (.real h) =
      .ok (.ofMatrix (partials p y + (h / 2) • secondPartials p y)) := by
  have hslope := forward_slope_eq Function.injective_id y hp y hne
  simp only [Function.extend_id] at hslope
  rw [ofFunction_ofFn rfl hf, hslope]
  rfl

/-- The forward quotients of an affine function are its derivative. -/
theorem IsPolynomial.forward_affine (hf : IsPolynomial f p) (hp : ∀ i, (p i).totalDegree ≤ 1)
    (y : Fin n → ℝ) {h : ℝ} (hne : h ≠ 0) :
    ofFunction "forward" f (.ofVector (List.ofFn y)) (.real h) = .ok (.ofMatrix (partials p y)) := by
  rw [hf.forward (fun i => (hp i).trans one_le_two) y hne, secondPartials_eq_zero hp, smul_zero, add_zero]

end

/-! ### Functions of several vectors -/

/-- The components of the vectors of a table, by the variable and the place in it. -/
def components (t : Table (Vec ℝ)) (c : Key × ℕ) : ℝ := ((t.get? c.1).getD []).getD c.2 0

/-- The components of a function of several vectors are polynomials in theirs, for all vectors of the sizes
    that they have at a point. -/
def IsPolynomialAbout (point : Table (Vec ℝ)) (f : Table (Tensor ℝ) → Except Error (Tensor ℝ))
    (p : Fin m → MvPolynomial (Key × ℕ) ℝ) : Prop :=
  ∀ t : Table (Vec ℝ), t.mapEntries List.length = point.mapEntries List.length →
    f (t.mapEntries .ofVector) = .ok (.ofVector (List.ofFn fun i => eval (components t) (p i)))

/-- The columns of a variable in the Jacobian matrix of polynomials at a point. -/
noncomputable def columnsOf (p : Fin m → MvPolynomial (Key × ℕ) ℝ) (point : Table (Vec ℝ)) (key : Key) :
    Mat ℝ :=
  .ofMatrix ((partials p (components point)).submatrix id
    fun j : Fin ((point.get? key).getD []).length => (key, (j : ℕ)))

section

variable {point : Table (Vec ℝ)} {key : Key} {y : Fin n → ℝ}
  {f : Table (Tensor ℝ) → Except Error (Tensor ℝ)} {p : Fin m → MvPolynomial (Key × ℕ) ℝ}

/-- A component of a variable, by its place. -/
def place (key : Key) (j : Fin n) : Key × ℕ := (key, j)

theorem place_injective (key : Key) : (place key : Fin n → Key × ℕ).Injective := fun _ _ h =>
  Fin.ext (Prod.mk.inj h).2

/-- Moving one vector moves its components and no others. -/
theorem components_set (hy : point.get? key = some (List.ofFn y)) (u : Fin n → ℝ) :
    components (point.set key (List.ofFn u)) = Function.extend (place key) u (components point) := by
  funext c
  by_cases hc : ∃ j : Fin n, place key j = c
  · obtain ⟨j, rfl⟩ := hc
    rw [(place_injective key).extend_apply]
    simp [components, place, Table.get?_set]
  · rw [Function.extend_apply' _ _ _ hc, components, components, Table.get?_set]
    split
    · next hkey =>
      -- a place behind the end of the vector, before and after
      have hout : n ≤ c.2 := not_lt.mp fun hlt => hc ⟨⟨c.2, hlt⟩, Prod.ext hkey.symm rfl⟩
      rw [hkey, hy]
      simp [List.getD_eq_getElem?_getD, hout]
    · rfl

theorem extend_components (hy : point.get? key = some (List.ofFn y)) :
    Function.extend (place key) y (components point) = components point := by
  rw [← components_set hy, Table.set_eq_self hy]

theorem columnsOf_eq (hy : point.get? key = some (List.ofFn y)) :
    columnsOf p point key =
      .ofMatrix ((partials p (components point)).submatrix id (place key : Fin n → Key × ℕ)) := by
  rw [columnsOf, hy, Option.getD_some, List.length_ofFn]
  rfl

/-- The function of one vector with the others held. -/
theorem IsPolynomialAbout.moved (hf : IsPolynomialAbout point f p) (hy : point.get? key = some (List.ofFn y))
    (u : Fin n → ℝ) :
    f ((point.set key (List.ofFn u)).mapEntries .ofVector) = .ok (.ofVector (List.ofFn fun i =>
      eval (Function.extend (place key) u (components point)) (p i))) := by
  have hsizes : (point.set key (List.ofFn u)).mapEntries List.length = point.mapEntries List.length := by
    rw [Table.mapEntries_set, List.length_ofFn]
    refine Table.set_eq_self ?_
    rw [Table.get?_mapEntries, hy, Option.map_some, List.length_ofFn]
  rw [hf _ hsizes, components_set hy]

theorem IsPolynomialAbout.isDerivativeAt (hf : IsPolynomialAbout point f p)
    (hy : point.get? key = some (List.ofFn y)) :
    (columnsOf p point key).IsDerivativeAt (fun u => f ((point.set key u).mapEntries .ofVector))
      (List.ofFn y) := by
  have hderivative := hasFDerivAt_partials (p := p) (place_injective key) (components point) y
  rw [extend_components hy] at hderivative
  exact ⟨m, n, _, y, _, columnsOf_eq hy, rfl, hf.moved hy, hderivative⟩

/-- **The quotients of a variable are its columns of the Jacobian matrix.** -/
theorem IsPolynomialAbout.quotients_of_variable (hf : IsPolynomialAbout point f p)
    (hp : ∀ i, (p i).totalDegree ≤ 2) (hy : point.get? key = some (List.ofFn y)) {h : ℝ} (hne : h ≠ 0) :
    ofFunction usual (fun moved => f ((point.mapEntries .ofVector).set key moved)) (.ofVector (List.ofFn y))
      (.real h) = .ok (columnsOf p point key) := by
  have hslope := central_slope_eq (place_injective key) (components point) hp y hne
  rw [extend_components hy] at hslope
  have hmoved : ∀ u : Fin n → ℝ, f ((point.mapEntries .ofVector).set key (.ofVector (List.ofFn u))) =
      .ok (.ofVector (List.ofFn fun i =>
        eval (Function.extend (place key) u (components point)) (p i))) := fun u => by
    rw [← Table.mapEntries_set, hf.moved hy]
  rw [ofFunction_ofFn rfl hmoved, hslope, columnsOf_eq hy]

/-- The matrices of all variables that are asked for, in their order. -/
theorem IsPolynomialAbout.quotients (hf : IsPolynomialAbout point f p) (hp : ∀ i, (p i).totalDegree ≤ 2)
    {keys : List Key} (hnodup : keys.Nodup) (hkeys : ∀ key ∈ keys, key ∈ point.keys) {h : ℝ} (hne : h ≠ 0) :
    blocksOf f (point.mapEntries .ofVector) keys (.real h) =
      .ok (keys.map fun key => (key, columnsOf p point key)) := by
  have hrows : (keys.mapM fun key => do
        let x ← (point.mapEntries Tensor.ofVector).find key
        let block ← ofFunction usual (fun moved => f ((point.mapEntries Tensor.ofVector).set key moved)) x
          (.real h)
        return (key, block)) = .ok (keys.map fun key => (key, columnsOf p point key)) := by
    refine mapM_eq_ok_map fun key hkey => ?_
    obtain ⟨x, hx⟩ := Table.exists_get?_of_mem_keys (hkeys key hkey)
    obtain ⟨n, y, rfl⟩ := Vec.eq_ofFn x
    rw [Table.find_mapEntries, Table.find_eq_ok.mpr hx]
    simp only [Except.map, bind, Except.bind, hf.quotients_of_variable hp hx hne]
    rfl
  have htable : Table.ofRows (keys.map fun key => (key, columnsOf p point key)) =
      keys.map fun key => (key, columnsOf p point key) :=
    Table.ofRows_of_nodup (by simpa [Function.comp_def] using hnodup)
  rw [blocksOf, hrows]
  exact congrArg Except.ok htable

end

/-- **The difference quotients of quadratic functions.**  Central quotients are the derivative and forward
    quotients are off by half the step times the second derivatives, which leaves an affine function exact;
    and the matrices of several variables are their columns of one Jacobian matrix, each the derivative in
    its variable with the others held. -/
theorem quotients_of_quadratic {h : ℝ} (hne : h ≠ 0) :
    (∀ {m n : ℕ} {f : ArrayFunction ℝ} {p : Fin m → MvPolynomial (Fin n) ℝ}, IsPolynomial f p →
      (∀ i, (p i).totalDegree ≤ 2) → ∀ y : Fin n → ℝ,
      (Mat.ofMatrix (partials p y)).IsDerivativeAt (fun u => f (.ofVector u)) (List.ofFn y) ∧
        ofFunction "central" f (.ofVector (List.ofFn y)) (.real h) = .ok (.ofMatrix (partials p y)) ∧
        ofFunction "forward" f (.ofVector (List.ofFn y)) (.real h) =
          .ok (.ofMatrix (partials p y + (h / 2) • secondPartials p y)) ∧
        ((∀ i, (p i).totalDegree ≤ 1) →
          ofFunction "forward" f (.ofVector (List.ofFn y)) (.real h) = .ok (.ofMatrix (partials p y)))) ∧
    ∀ {m : ℕ} {f : Table (Tensor ℝ) → Except Error (Tensor ℝ)} {point : Table (Vec ℝ)}
      {p : Fin m → MvPolynomial (Key × ℕ) ℝ}, IsPolynomialAbout point f p → (∀ i, (p i).totalDegree ≤ 2) →
      ∀ keys : List Key, keys.Nodup → (∀ key ∈ keys, key ∈ point.keys) →
      blocksOf f (point.mapEntries .ofVector) keys (.real h) =
          .ok (keys.map fun key => (key, columnsOf p point key)) ∧
        ∀ key ∈ keys, ∃ x, point.find key = .ok x ∧
          (columnsOf p point key).IsDerivativeAt (fun u => f ((point.set key u).mapEntries .ofVector)) x := by
  refine ⟨fun hf hp y => ⟨hf.isDerivativeAt y, hf.central hp y hne, hf.forward hp y hne,
    fun haffine => hf.forward_affine haffine y hne⟩, fun hf hp keys hnodup hkeys =>
    ⟨hf.quotients hp hnodup hkeys hne, fun key hkey => ?_⟩⟩
  obtain ⟨x, hx⟩ := Table.exists_get?_of_mem_keys (hkeys key hkey)
  obtain ⟨n, y, rfl⟩ := Vec.eq_ofFn x
  exact ⟨_, Table.find_eq_ok.mpr hx, hf.isDerivativeAt hx⟩

/-! The square of the first of two numbers and their product; and a number times the second entry of a
vector, as a function of two variables. -/

namespace Quadratic

open MvPolynomial (X)

def ofPair : ArrayFunction ℝ := fun t =>
  match t.data with
  | [x, y] => .ok (.ofVector [x * x, x * y])
  | _ => .error .shapeMismatch

noncomputable def pairPolynomials : Fin 2 → MvPolynomial (Fin 2) ℝ := ![X 0 * X 0, X 0 * X 1]

theorem isPolynomial_ofPair : IsPolynomial ofPair pairPolynomials := fun u => by
  simp [ofPair, pairPolynomials, Tensor.ofVector]

theorem totalDegree_pairPolynomials (i : Fin 2) : (pairPolynomials i).totalDegree ≤ 2 := by
  fin_cases i <;> exact (MvPolynomial.totalDegree_mul _ _).trans (by simp)

def ofSeveral (t : Table (Tensor ℝ)) : Except Error (Tensor ℝ) :=
  match t with
  | [(.number 0, x), (.number 1, v)] => .ok (.ofVector [x.data.getD 0 0 * v.data.getD 1 0])
  | _ => .error .shapeMismatch

def point : Table (Vec ℝ) := [(.number 0, [1]), (.number 1, [0, -1])]

noncomputable def product : Fin 1 → MvPolynomial (Key × ℕ) ℝ :=
  ![X (.number 0, 0) * X (.number 1, 1)]

theorem isPolynomialAbout_ofSeveral : IsPolynomialAbout point ofSeveral product := by
  intro t hsizes
  have hlength : t.length = 2 := by simpa [Table.mapEntries, point] using congrArg List.length hsizes
  obtain ⟨⟨k, x⟩, ⟨l, v⟩, rfl⟩ := List.length_eq_two.mp hlength
  simp only [Table.mapEntries, point, List.map_cons, List.map_nil, List.cons.injEq, Prod.mk.injEq] at hsizes
  obtain ⟨⟨rfl, -⟩, ⟨rfl, -⟩, -⟩ := hsizes
  simp [Table.mapEntries, ofSeveral, product, components, Table.get?_cons, Tensor.ofVector]

theorem totalDegree_product (i : Fin 1) : (product i).totalDegree ≤ 2 := by
  fin_cases i
  exact (MvPolynomial.totalDegree_mul _ _).trans (by simp)

end Quadratic

open Quadratic in
/-- Both functions with steps of one half, the second one in its variables from last to first. -/
theorem quotients_of_quadratic_pair :
    ofFunction "central" ofPair (.ofVector [1, 2]) (.real (1 / 2)) = .ok ⟨2, [[2, 0], [2, 1]]⟩ ∧
      ofFunction "forward" ofPair (.ofVector [1, 2]) (.real (1 / 2)) = .ok ⟨2, [[2 + 1 / 2, 0], [2, 1]]⟩ ∧
      blocksOf ofSeveral (point.mapEntries .ofVector) [.number 1, .number 0] (.real (1 / 2)) =
        .ok [(.number 1, ⟨2, [[0, 1]]⟩), (.number 0, ⟨1, [[-1]]⟩)] := by
  have half : (1 / 2 : ℝ) ≠ 0 := by norm_num
  obtain ⟨-, hcentral, hforward, -⟩ := (quotients_of_quadratic half).1 isPolynomial_ofPair
    totalDegree_pairPolynomials ![1, 2]
  obtain ⟨hblocks, -⟩ := (quotients_of_quadratic half).2 isPolynomialAbout_ofSeveral totalDegree_product
    [.number 1, .number 0] (by decide) (by decide)
  have hjacobian : Mat.ofMatrix (partials pairPolynomials ![1, 2]) = ⟨2, [[2, 0], [2, 1]]⟩ := by
    simp [Mat.ofMatrix, partials, pairPolynomials, one_add_one_eq_two]
  have hshifted : Mat.ofMatrix (partials pairPolynomials ![1, 2] +
      (1 / 2 / 2 : ℝ) • secondPartials pairPolynomials ![1, 2]) = ⟨2, [[2 + 1 / 2, 0], [2, 1]]⟩ := by
    norm_num [Mat.ofMatrix, partials, secondPartials, pairPolynomials]
  have hfirst : columnsOf product point (.number 0) = ⟨1, [[-1]]⟩ := by
    rw [columnsOf_eq (y := ![1]) rfl]
    simp [Mat.ofMatrix, partials, product, place, components, point, Table.get?_cons]
  have hsecond : columnsOf product point (.number 1) = ⟨2, [[0, 1]]⟩ := by
    rw [columnsOf_eq (y := ![0, -1]) rfl]
    simp [Mat.ofMatrix, partials, product, place, components, point, Table.get?_cons]
  rw [hjacobian] at hcentral
  rw [hshifted] at hforward
  rw [List.map_cons, List.map_singleton, hfirst, hsecond] at hblocks
  exact ⟨hcentral, hforward, hblocks⟩

end Derivative

end LeastSquares
