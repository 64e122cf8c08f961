/-
  LeastSquares/Proofs/FittedFactors.lean
  ======================================
  **Whatever can be eliminated can be solved.**

  An elimination takes blocks that are narrower than their variables, and arrays, and stacks what is
  written over the columns and the rows.  A problem whose blocks have been written out already is
  eliminated alike, and its blocks have the sizes of the variables.  So an elimination that returns, of
  any problem that can be built, leads to a solution; what is wrong with a problem is met before.
-/
import LeastSquares.Proofs.ArrayFactors
import LeastSquares.Proofs.RegularGraphs

namespace LeastSquares

variable {α : Type}

/-! ### Factors that can be built -/

theorem Tensor.length_of_vector {t : Tensor α} (ht : t.IsRegular) (haxes : t.shape ≠ []) {xs : List α}
    (h : t.vector? = some xs) : xs.length = t.outerLength := by
  obtain ⟨shape, data⟩ := t
  rw [vector?] at h
  split at h
  · next hvector =>
    cases h
    match shape with
    | [] => exact (haxes rfl).elim
    | [n] => exact ht.trans (by simp [outerLength])
    | m :: n :: shape => simp at hvector
  · cases h

theorem Tensor.atLeastVector_shape (t : Tensor α) : t.atLeastVector.shape ≠ [] := by
  rw [atLeastVector]
  split
  · simp
  · next haxes => exact fun hnone => haxes (List.isEmpty_iff.mpr hnone)

theorem Tensor.two_le_atLeastMatrix (t : Tensor α) : 2 ≤ t.atLeastMatrix.shape.length := by
  obtain ⟨shape, data⟩ := t
  match shape with
  | [] => exact le_rfl
  | [n] => exact le_rfl
  | m :: n :: shape => simp [atLeastMatrix]

theorem LinearFactor.rows_of_checkRows {key : Key} {rows expected : ℕ} {u : Unit}
    (h : checkRows key rows expected = .ok u) : rows = expected := by
  rw [checkRows] at h
  split at h
  · assumption
  · cases h

theorem Mat.height_of_ofTensor {t : Tensor α} (haxes : 2 ≤ t.shape.length) {m : Mat α}
    (h : ofTensor? t = some m) : m.height = t.outerLength := by
  obtain ⟨shape, data⟩ := t
  match shape with
  | [] => simp at haxes
  | [n] => simp at haxes
  | [rows, n] =>
    cases h
    exact Tensor.length_cut _ _ _
  | k :: rows :: n :: shape => cases h

namespace LinearFactor

/-- A factor can be built: its variables are different, its matrices are as high as the right-hand side
    and have rows of one length, and its arrays have a number at every place. -/
def IsBuilt : LinearFactor α → Prop
  | dense blocks rhs => blocks.keys.Nodup ∧
      ∀ entry ∈ blocks, entry.2.height = rhs.length ∧ entry.2.IsRectangular
  | arrays blocks rhs => rhs.IsRegular ∧ blocks.keys.Nodup ∧ ∀ entry ∈ blocks, entry.2.IsRegular

theorem Formed.isBuilt {dims : Table ℕ} {f : LinearFactor α} (h : f.Formed dims) : f.IsBuilt := by
  cases f with
  | dense blocks rhs => exact ⟨h.1, fun entry hentry => (h.2 entry hentry).2⟩
  | arrays blocks rhs => exact ⟨h.1, h.2.1, fun entry hentry => (h.2.2 entry hentry).1⟩

/-- The matrices of arrays, one for each. -/
theorem matrices_of_mapM {blocks : Table (Tensor α)} {matrices : Table (Mat α)}
    (h : blocks.mapM (fun row => (Mat.ofTensor? row.2).map fun block => (row.1, block)) =
      some matrices) :
    matrices.keys = blocks.keys ∧
      ∀ entry ∈ matrices, ∃ row ∈ blocks, Mat.ofTensor? row.2 = some entry.2 := by
  induction blocks generalizing matrices with
  | nil =>
    cases h
    exact ⟨rfl, by simp⟩
  | cons row blocks ih =>
    simp only [List.mapM_cons, Option.bind_eq_bind, Option.bind_eq_some_iff, Option.map_eq_some_iff,
      Option.pure_def, Option.some.injEq] at h
    obtain ⟨_, ⟨m, hm, rfl⟩, rest, hrest, rfl⟩ := h
    obtain ⟨hkeys, hblocks⟩ := ih hrest
    refine ⟨congrArg (row.1 :: ·) hkeys, List.forall_mem_cons.mpr ⟨⟨row, by simp, hm⟩, ?_⟩⟩
    intro entry hentry
    obtain ⟨row', hrow', heq⟩ := hblocks entry hentry
    exact ⟨row', List.mem_cons_of_mem _ hrow', heq⟩

theorem isBuilt_ofArrays {blocks : Table (Tensor α)} {rhs : Tensor α} (hrhs : rhs.IsRegular)
    (hvector : rhs.shape ≠ []) (hnodup : blocks.keys.Nodup)
    (hblocks : ∀ entry ∈ blocks, entry.2.IsRegular ∧ 2 ≤ entry.2.shape.length ∧
      entry.2.outerLength = rhs.outerLength) : (ofArrays blocks rhs).IsBuilt := by
  unfold ofArrays
  dsimp only
  split
  · next matrices xs hmatrices hxs =>
    obtain ⟨hkeys, hrows⟩ := matrices_of_mapM hmatrices
    refine ⟨hkeys ▸ hnodup, fun entry hentry => ?_⟩
    obtain ⟨row, hrow, hmatrix⟩ := hrows entry hentry
    obtain ⟨hregular, haxes, houter⟩ := hblocks row hrow
    have hlength := Tensor.length_of_vector hrhs hvector hxs
    refine ⟨(Mat.height_of_ofTensor haxes hmatrix).trans (houter.trans hlength.symm),
      Mat.isRectangular_of_ofTensor hregular ?_⟩
    rw [Mat.ofTensor, hmatrix]
  · exact ⟨hrhs, hnodup, fun entry hentry => (hblocks entry hentry).1⟩

variable [Scalar α]

/-- **Every factor that is read can be built.** -/
theorem isBuilt_of_ofGiven {g : Given α} {f : LinearFactor α} (h : ofGiven g = .ok f) : f.IsBuilt := by
  obtain ⟨rhs, hrhs, h⟩ := bind_eq_ok.mp h
  obtain ⟨blocks, hblocks, h⟩ := bind_eq_ok.mp h
  cases h
  have hrow : ∀ (row : Key × Given α) (entry : Key × Tensor α), (do
      let block ← Tensor.ofGiven row.2
      checkRows row.1 block.atLeastMatrix.outerLength rhs.atLeastVector.outerLength
      return (row.1, block.atLeastMatrix)) = Except.ok entry →
      entry.1 = row.1 ∧ entry.2.IsRegular ∧ 2 ≤ entry.2.shape.length ∧
        entry.2.outerLength = rhs.atLeastVector.outerLength := by
    intro row entry hentry
    obtain ⟨block, hblock, hentry⟩ := bind_eq_ok.mp hentry
    obtain ⟨u, hchecked, hentry⟩ := bind_eq_ok.mp hentry
    cases hentry
    have hregular := Tensor.isRegular_of_ofGiven hblock
    exact ⟨rfl, hregular.atLeastMatrix, block.two_le_atLeastMatrix, rows_of_checkRows hchecked⟩
  have hkeys : Table.keys blocks = Table.keys (Table.ofRows (g.field "blocks").pairs) :=
    map_eq_of_mapM (p := Prod.fst) (q := Prod.fst) hblocks fun row _ entry hentry =>
      (hrow row entry hentry).1
  refine isBuilt_ofArrays (Tensor.isRegular_of_ofGiven hrhs).atLeastVector rhs.atLeastVector_shape
    (hkeys ▸ Table.nodup_ofRows _) fun entry hentry => ?_
  obtain ⟨row, -, hentry⟩ := exists_of_mem_mapM hblocks hentry
  exact (hrow row entry hentry).2

/-! ### Blocks written out -/

/-- A matrix with the width of its variable: a single column is repeated, and one that has neither width
    is replaced. -/
def fittedMat (dim height : ℕ) (m : Mat α) : Mat α :=
  if m.width = dim then m
  else if m.width = 1 then ⟨dim, m.rows.map (stretch dim)⟩
  else ⟨dim, List.replicate height (Vec.zeros dim)⟩

/-- The matrix that an array is written as, if it can be. -/
def writtenMat (dim height : ℕ) (t : Tensor α) : Mat α :=
  match t.written [height, dim] with
  | .ok data => ⟨dim, Tensor.cut dim data height⟩
  | .error _ => ⟨dim, List.replicate height (Vec.zeros dim)⟩

/-- The factor with every block written out for the sizes of the variables. -/
def fitted (dims : Table ℕ) : LinearFactor α → LinearFactor α
  | dense blocks rhs =>
    dense (blocks.map fun entry => (entry.1, fittedMat (dims.dimOf entry.1) rhs.length entry.2)) rhs
  | arrays blocks rhs =>
    dense (blocks.map fun entry => (entry.1, writtenMat (dims.dimOf entry.1) rhs.outerLength entry.2))
      (flatRhs rhs)

variable {dims : Table ℕ}

theorem keys_fitted (dims : Table ℕ) (f : LinearFactor α) : (f.fitted dims).keys = f.keys := by
  cases f <;> simp [fitted, keys, Table.keys, Function.comp_def]

theorem rewrites_fitted (dims : Table ℕ) : Rewrites (α := α) dims (fitted dims) where
  keys_eq := keys_fitted dims
  cut_eq f hf := by
    cases f with
    | dense blocks rhs =>
      have hsame : ∀ entry ∈ blocks,
          (entry.1, fittedMat (dims.dimOf entry.1) rhs.length entry.2) = entry := by
        intro entry hentry
        rw [Table.dimOf_eq (hf entry hentry), fittedMat, if_pos rfl]
      rw [fitted, List.map_congr_left hsame, List.map_id']
    | arrays blocks rhs => exact hf.elim

omit [Scalar α] in
theorem stretch_stretch (n : ℕ) (xs : List α) : stretch n (stretch n xs) = stretch n xs := by
  match xs with
  | [] => rfl
  | [x] =>
    match n with
    | 0 => rfl
    | 1 => rfl
    | n + 2 => rfl
  | x :: y :: xs => rfl

omit [Scalar α] in
/-- A fold that returns is passed on to steps that return the same. -/
theorem foldlM_eq_ok_of_steps {β γ : Type} {f f' : γ → β → Except Error γ} {xs : List β} {start c : γ}
    (h : xs.foldlM f start = .ok c) (hsteps : ∀ b, ∀ x ∈ xs, ∀ d, f b x = .ok d → f' b x = .ok d) :
    xs.foldlM f' start = .ok c := by
  induction xs generalizing start with
  | nil => exact h
  | cons x xs ih =>
    rw [List.foldlM_cons] at h ⊢
    obtain ⟨d, hd, h⟩ := bind_eq_ok.mp h
    refine bind_eq_ok.mpr ⟨d, hsteps start x (by simp) d hd, ih h fun b y hy => ?_⟩
    exact hsteps b y (List.mem_cons_of_mem _ hy)

/-- **Blocks that can be stacked are stacked alike when they are written out.** -/
theorem stackBlocks_fitted {columns : Table ℕ} {width : ℕ} {blocks : Table (Mat α)} {rhs : Vec α}
    {rows : List (Vec α)}
    (h : Elimination.stackBlocks dims columns width blocks rhs = .ok rows) :
    Elimination.stackBlocks dims columns width
      (blocks.map fun entry => (entry.1, fittedMat (dims.dimOf entry.1) rhs.length entry.2)) rhs =
        .ok rows := by
  obtain ⟨stacked, hstacked, h⟩ := bind_eq_ok.mp h
  refine bind_eq_ok.mpr ⟨stacked, ?_, h⟩
  rw [List.foldlM_map]
  refine foldlM_eq_ok_of_steps hstacked fun rows entry _ next hnext => ?_
  obtain ⟨column, hcolumn, hnext⟩ := bind_eq_ok.mp hnext
  obtain ⟨dim, hdim, hnext⟩ := bind_eq_ok.mp hnext
  have hdimOf := Table.dimOf_eq (Table.find_eq_ok.mp hdim)
  simp only [hcolumn, hdim, hdimOf, bind, Except.bind]
  unfold fittedMat
  by_cases hwidth : entry.2.width = dim
  · rw [if_pos hwidth]
    exact hnext
  by_cases hone : entry.2.width = 1
  · -- the column is repeated before it is stacked instead of while it is
    rw [if_neg hwidth, if_pos hone]
    have hguard : ¬ (entry.2.width ≠ dim ∧ entry.2.width ≠ 1) := fun hnot => hnot.2 hone
    simp only [if_neg hguard] at hnext
    simpa [List.zipWith_map_right, stretch_stretch] using hnext
  · have hguard : entry.2.width ≠ dim ∧ entry.2.width ≠ 1 := ⟨hwidth, hone⟩
    simp only [if_pos hguard] at hnext
    cases hnext

theorem IsBuilt.keepsRows {f : LinearFactor α} (hf : f.IsBuilt) : f.KeepsRows dims (fitted dims) := by
  intro columns width rows hrows
  cases f with
  | dense blocks rhs => exact ⟨stackBlocks_fitted hrows, rfl⟩
  | arrays blocks rhs =>
    obtain ⟨matrices, hmatrices, hrows⟩ := bind_eq_ok.mp hrows
    obtain ⟨b, hb, hrows⟩ := bind_eq_ok.mp hrows
    have hwritten := map_eq_of_mapM (q := id) (p := fun entry =>
      (entry.1, writtenMat (dims.dimOf entry.1) rhs.outerLength entry.2)) hmatrices
      fun entry _ matrix hmatrix => by
        obtain ⟨dim, hdim, hmatrix⟩ := bind_eq_ok.mp hmatrix
        obtain ⟨data, hdata, hmatrix⟩ := bind_eq_ok.mp hmatrix
        cases hmatrix
        simp only [id, Table.dimOf_eq (Table.find_eq_ok.mp hdim), writtenMat, hdata]
    rw [List.map_id] at hwritten
    have hrhs : flatRhs rhs = b := by simp only [flatRhs, hb]
    refine ⟨?_, length_flatRhs hf.1⟩
    rw [fitted, Elimination.stackedRows, ← hwritten, hrhs]
    exact hrows

/-! ### Sizes of blocks -/

omit [Scalar α] in
theorem length_stretch_of_one {n : ℕ} {xs : List α} (h : xs.length = 1) : (stretch n xs).length = n := by
  obtain ⟨x, rfl⟩ := List.length_eq_one_iff.mp h
  exact List.length_replicate

theorem fittedMat_spec (dim : ℕ) {height : ℕ} {m : Mat α} (hheight : m.height = height)
    (hm : m.IsRectangular) :
    (fittedMat dim height m).width = dim ∧ (fittedMat dim height m).height = height ∧
      (fittedMat dim height m).IsRectangular := by
  unfold fittedMat
  split
  · next hwidth => exact ⟨hwidth, hheight, hm⟩
  · split
    · next hone =>
      refine ⟨rfl, by rw [← hheight]; exact List.length_map _, List.forall_mem_map.mpr fun row hrow => ?_⟩
      exact length_stretch_of_one ((hm row hrow).trans hone)
    · refine ⟨rfl, List.length_replicate, fun row hrow => ?_⟩
      rw [List.eq_of_mem_replicate hrow]
      exact List.length_replicate

theorem writtenMat_spec (dim height : ℕ) {t : Tensor α} (ht : t.IsRegular) :
    (writtenMat dim height t).width = dim ∧ (writtenMat dim height t).height = height ∧
      (writtenMat dim height t).IsRectangular := by
  unfold writtenMat
  split
  · next data hdata =>
    have hlength := Tensor.length_of_written ht hdata
    rw [Tensor.places_cons, Tensor.places_cons, Tensor.places_nil, Nat.mul_one] at hlength
    exact ⟨rfl, Tensor.length_cut _ _ _, Tensor.length_of_mem_cut hlength⟩
  · refine ⟨rfl, List.length_replicate, fun row hrow => ?_⟩
    rw [List.eq_of_mem_replicate hrow]
    exact List.length_replicate

theorem IsBuilt.fits_fitted {f : LinearFactor α} (hf : f.IsBuilt)
    (hsized : ∀ key ∈ f.keys, ∃ n, dims.get? key = some n) : (f.fitted dims).Fits dims := by
  have hdims : ∀ key ∈ f.keys, dims.get? key = some (dims.dimOf key) := by
    intro key hkey
    obtain ⟨n, hn⟩ := hsized key hkey
    rw [hn, Table.dimOf_eq hn]
  have hkeys := congrArg List.Nodup (keys_fitted dims f)
  cases f with
  | dense blocks rhs =>
    refine ⟨hkeys.mpr hf.1, List.forall_mem_map.mpr fun entry hentry => ?_⟩
    obtain ⟨hheight, hrectangular⟩ := hf.2 entry hentry
    obtain ⟨hwidth, hspec⟩ := fittedMat_spec (dims.dimOf entry.1) hheight hrectangular
    exact ⟨(hdims _ (List.mem_map_of_mem hentry)).trans (congrArg some hwidth.symm), hspec⟩
  | arrays blocks rhs =>
    refine ⟨hkeys.mpr hf.2.1, List.forall_mem_map.mpr fun entry hentry => ?_⟩
    obtain ⟨hwidth, hheight, hrectangular⟩ := writtenMat_spec (dims.dimOf entry.1) rhs.outerLength
      (hf.2.2 entry hentry)
    exact ⟨(hdims _ (List.mem_map_of_mem hentry)).trans (congrArg some hwidth.symm),
      hheight.trans (length_flatRhs hf.1).symm, hrectangular⟩

end LinearFactor

/-! ### Problems that can be eliminated -/

open LinearFactor

variable {order : EliminationOrder} {dims : Table ℕ} {g : LinearGraph α}

theorem EliminationOrder.mem_of_find_positions {key : Key} {place : ℕ}
    (h : order.positions.find key = .ok place) : key ∈ order.keys := by
  have hkeys : order.positions.keys = order.keys := List.zipIdx_map_fst _ _
  exact hkeys ▸ Table.mem_keys_of_get? (Table.find_eq_ok.mp h)

/-- Only of ordered variables there is an earliest one. -/
theorem mem_of_earliest {keys : List Key} {first : Key}
    (h : earliest order.positions keys = .ok first) : ∀ key ∈ keys, key ∈ order.keys := by
  cases keys with
  | nil => simp
  | cons head keys =>
    obtain ⟨place, hplace, hrest⟩ := bind_eq_ok.mp h
    obtain ⟨best, hbest, -⟩ := bind_eq_ok.mp hrest
    refine List.forall_mem_cons.mpr ⟨EliminationOrder.mem_of_find_positions hplace, ?_⟩
    clear h hplace hrest
    generalize (place, head) = start at hbest
    induction keys generalizing start with
    | nil => simp
    | cons key keys ih =>
      rw [List.foldlM_cons] at hbest
      obtain ⟨next, hnext, hbest⟩ := bind_eq_ok.mp hbest
      obtain ⟨place, hplace, -⟩ := bind_eq_ok.mp hnext
      exact List.forall_mem_cons.mpr ⟨EliminationOrder.mem_of_find_positions hplace, ih _ hbest⟩

/-- Factors that can be assigned are about ordered variables. -/
theorem BayesNet.listed_of_assign {pending : List (Key × LinearFactor α)}
    (h : assign order.positions g = .ok pending) : ∀ f ∈ g.factors, ∀ key ∈ f.keys, key ∈ order.keys := by
  intro f hf key hkey
  have hmem : f ∈ g.factors.filter fun f => !f.keys.isEmpty :=
    List.mem_filter.mpr ⟨hf, by simpa using List.ne_nil_of_mem hkey⟩
  obtain ⟨e, -, he⟩ := exists_right_of_mem (mapM_eq_ok_iff.mp h) hmem
  obtain ⟨first, hfirst, -⟩ := bind_eq_ok.mp he
  exact mem_of_earliest hfirst key hkey

variable [Scalar α]

/-- Every factor of the problem can be built. -/
def LinearGraph.IsBuilt (g : LinearGraph α) : Prop := ∀ f ∈ g.factors, f.IsBuilt

/-- The problem with every block written out. -/
def LinearGraph.fitted (g : LinearGraph α) (dims : Table ℕ) : LinearGraph α :=
  g.rewrite (LinearFactor.fitted dims)

theorem LinearGraph.IsBuilt.accords (hg : g.IsBuilt) (hnodup : order.keys.Nodup)
    (hlisted : ∀ f ∈ g.factors, ∀ key ∈ f.keys, key ∈ order.keys)
    (hsized : ∀ key ∈ order.keys, ∃ n, dims.get? key = some n) :
    (g.fitted dims).Accords order.keys dims where
  nodup := hnodup
  sized := hsized
  fits := List.forall_mem_map.mpr fun f hf =>
    (hg f hf).fits_fitted fun key hkey => hsized key (hlisted f hf key hkey)
  listed := List.forall_mem_map.mpr fun f hf => keys_fitted dims f ▸ hlisted f hf

theorem BayesNet.sized_of_eliminateAll {position : Table ℕ} {keys : List Key}
    {pending : List (Key × LinearFactor α)} {cs : List (Conditional α)}
    (h : eliminateAll dims position keys pending = .ok cs) :
    ∀ key ∈ keys, ∃ n, dims.get? key = some n := by
  induction keys generalizing pending cs with
  | nil => simp
  | cons key keys ih =>
    rw [eliminateAll_cons] at h
    obtain ⟨⟨c, u⟩, heliminate, h⟩ := bind_eq_ok.mp h
    obtain ⟨cs, hcs, -⟩ := bind_eq_ok.mp h
    obtain ⟨hfrontals, hdims, -⟩ := Elimination.eliminate_keys heliminate
    refine List.forall_mem_cons.mpr ⟨?_, ih hcs⟩
    rw [← hdims]
    exact Elimination.eliminate_sized heliminate key (hfrontals ▸ List.mem_singleton_self key)

/-- **A run that returns has met only ordered variables with sizes.** -/
theorem BayesNet.covered_of_eliminate {net : BayesNet α} (h : eliminate order dims g = .ok net) :
    (∀ f ∈ g.factors, ∀ key ∈ f.keys, key ∈ order.keys) ∧
      ∀ key ∈ order.keys, ∃ n, dims.get? key = some n := by
  obtain ⟨pending, hassign, h⟩ := bind_eq_ok.mp h
  obtain ⟨cs, hcs, -⟩ := bind_eq_ok.mp h
  exact ⟨listed_of_assign hassign, sized_of_eliminateAll hcs⟩

open FrontForest BayesTree in
theorem MultifrontalSolver.covered_of_eliminate {s : MultifrontalSolver α} (hs : s.Coherent)
    (hnodup : s.order.keys.Nodup) {t : BayesTree α} (h : (s.eliminate g).result = .ok t) :
    (∀ f ∈ g.factors, ∀ key ∈ f.keys, key ∈ s.order.keys) ∧
      ∀ key ∈ s.order.keys, ∃ n, s.dims.get? key = some n := by
  obtain ⟨forest, hforest, -⟩ := bind_eq_ok.mp (eliminate_result hs g ▸ h)
  have hlisted := listed_of_ofGraph hforest
  refine ⟨hlisted, fun key hkey => ?_⟩
  obtain ⟨table, forest, pending, hspec, -, -, -, hbelongs, ⟨calls, hrun, -⟩ |
    ⟨_, _, _, _, e, -, -, hresult, -⟩⟩ := eliminate_cases hs hnodup hlisted
  · have hlength : (calls.map (·.conditional)).length = forest.fronts.length := by
      rw [List.length_map, hrun.length_calls]
    -- the conditionals are about all variables, and each was found with the sizes of its own
    obtain ⟨c, hc, hfrontal⟩ := List.mem_flatMap.mp
      (((hrun.conform hspec hbelongs).mem_flatMap_iff hspec hlength key).mpr hkey)
    obtain ⟨call, hcall, rfl⟩ := List.mem_map.mp hc
    obtain ⟨-, hsound⟩ := hrun.sound hspec (List.prefix_refl _) hbelongs
    obtain ⟨front, hfront⟩ := hsound call hcall
    obtain ⟨update, heliminate, -⟩ := hfront.eliminated
    obtain ⟨-, hdims, -⟩ := Elimination.eliminate_keys heliminate
    rw [← hdims]
    exact Elimination.eliminate_sized heliminate key hfrontal
  · rw [h] at hresult
    cases hresult

/-! ### Solutions -/

/-- **Where the elimination of one variable after another returns, so does the solver.** -/
theorem SequentialSolver.solve_of_eliminate {order : EliminationOrder} {dims : Table ℕ}
    (hnodup : order.keys.Nodup) {g : LinearGraph ℝ} (hg : g.IsBuilt) {net : BayesNet ℝ}
    (h : BayesNet.eliminate order dims g = .ok net) (last : Option (BayesNet ℝ)) :
    ∃ d, (solve ⟨order, dims, last⟩ g).result = .ok d := by
  obtain ⟨hlisted, hsized⟩ := BayesNet.covered_of_eliminate h
  have hfitted : BayesNet.eliminate order dims (g.fitted dims) = .ok net :=
    BayesNet.eliminate_rewrite (rewrites_fitted dims) (fun f hf => (hg f hf).keepsRows) h
  obtain ⟨d, hd, -⟩ := BayesNet.solution_of_eliminate (hg.accords hnodup hlisted hsized) hfitted
  refine ⟨d, ?_⟩
  simp only [solve, h]
  exact hd

/-- **Where the elimination along the fronts returns, so does the solver.** -/
theorem MultifrontalSolver.solve_of_eliminate_built {s : MultifrontalSolver ℝ} (hs : s.Coherent)
    (hnodup : s.order.keys.Nodup) {g : LinearGraph ℝ} (hg : g.IsBuilt) {t : BayesTree ℝ}
    (h : (s.eliminate g).result = .ok t) : ∃ d, (s.solve g).result = .ok d := by
  obtain ⟨hlisted, hsized⟩ := covered_of_eliminate hs hnodup h
  have hfitted : (s.eliminate (g.fitted s.dims)).result = .ok t :=
    eliminate_rewrite hs (rewrites_fitted s.dims) (fun f hf => (hg f hf).keepsRows) h
  obtain ⟨d, hd, -⟩ := solution_of_eliminate hs (hg.accords hnodup hlisted hsized) hfitted
  refine ⟨d, ?_⟩
  simp only [solve, hfitted] at hd
  simp only [solve, h]
  exact hd

end LeastSquares
