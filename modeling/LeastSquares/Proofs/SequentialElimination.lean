/-
  LeastSquares/Proofs/SequentialElimination.lean
  ==============================================
  **Elimination of one variable after another solves the least-squares problem.**

  Every waiting factor is about the variable it waits for and later ones.  With this, the run keeps
  the sum of what the conditionals so far and the waiting factors miss, up to a constant, and the
  conditionals form a schedule when they are taken in reverse.
-/
import LeastSquares.Proofs.Positions
import LeastSquares.Proofs.Solution

namespace LeastSquares

open Vec

variable {order : EliminationOrder} {dims : Table ℕ}

/-- **Elimination of ordered variables fails only where one of them is not determined.** -/
theorem Elimination.fails_of_listed {factors : List (LinearFactor ℝ)} {frontals : List Key}
    {e : Error} (h : eliminate factors frontals dims order.positions = .error e)
    (hsized : ∀ key ∈ order.keys, ∃ n, dims.get? key = some n ∧ 0 < n) (hne : frontals ≠ [])
    (hnodup : frontals.Nodup) (hfrontals : ∀ key ∈ frontals, key ∈ order.keys)
    (hlisted : ∀ f ∈ factors, ∀ key ∈ f.keys, key ∈ order.keys)
    (hfits : ∀ f ∈ factors, f.Fits dims) :
    ∃ (t : Course ℝ) (column : ℕ) (key : Key), t.Formed factors frontals dims order.positions ∧
      t.FailsAt column ∧ key ∈ frontals ∧ keyAtColumn dims frontals column = .ok key ∧
      e = .indeterminate key := by
  have hdims : ∀ key ∈ order.keys, ∃ n, dims.get? key = some n := fun key hkey =>
    (hsized key hkey).imp fun _ hn => hn.1
  have hwidth : 0 < dims.widthOf frontals := by
    cases frontals with
    | nil => exact (hne rfl).elim
    | cons key keys =>
      obtain ⟨n, hn, hpos⟩ := hsized key (hfrontals key (by simp))
      rw [Table.widthOf_cons, Table.dimOf_eq hn]
      omega
  refine eliminate_fails h hnodup hfits hwidth (fun key hkey => hdims key (hfrontals key hkey)) ?_
  intro f hf key hkey
  have hkey := hlisted f hf key hkey
  exact ⟨⟨_, EliminationOrder.get?_positions hkey⟩, hdims key hkey⟩

namespace BayesNet

/-- What the waiting factors miss together. -/
noncomputable def pendingMisfit (pending : List (Key × LinearFactor ℝ)) (x : Assignment) : ℝ :=
  (pending.map fun e => e.2.misfit x).sum

/-- A factor is ready for a run over the variables that are left. -/
structure Ready (order : EliminationOrder) (dims : Table ℕ) (todo : List Key)
    (e : Key × LinearFactor ℝ) : Prop where
  waits : Waits order e.1 e.2
  mem : e.1 ∈ todo
  fits : e.2.Fits dims

/-- What a run over the variables that are left comes to: the conditionals split what the waiting
    factors miss, and can be solved in reverse. -/
structure Splits (dims : Table ℕ) (todo : List Key) (pending : List (Key × LinearFactor ℝ))
    (cs : List (Conditional ℝ)) : Prop where
  proper : ∀ c ∈ cs, c.IsProper dims
  scheduled : Conditional.Scheduled [] cs.reverse
  covers : ∀ key, key ∈ cs.reverse.flatMap (·.frontals) ↔ key ∈ todo
  split : ∃ rest : ℝ, ∀ x, pendingMisfit pending x = (cs.map (Conditional.misfit · x)).sum + rest

theorem pendingMisfit_partition (pending : List (Key × LinearFactor ℝ)) (key : Key)
    (x : Assignment) : pendingMisfit pending x =
      (((pending.filter fun e => e.1 = key).map Prod.snd).map (LinearFactor.misfit x)).sum +
        pendingMisfit (pending.filter fun e => !decide (e.1 = key)) x := by
  have hperm := (List.filter_append_perm (fun e => decide (e.1 = key)) pending).map
    fun e => e.2.misfit x
  rw [pendingMisfit, ← hperm.sum_eq, List.map_append, List.sum_append, List.map_map]
  rfl

theorem pendingMisfit_waiting {u : Option (LinearFactor ℝ)} (hne : ∀ f, u = some f → f.keys ≠ [])
    (x : Assignment) : pendingMisfit (waiting u) x = Elimination.leftMisfit u x := by
  cases u with
  | none => rfl
  | some f =>
    cases hkeys : f.keys with
    | nil => exact (hne f rfl hkeys).elim
    | cons key keys => simp [pendingMisfit, waiting, hkeys, Elimination.leftMisfit]

/-- **One step of the run.** -/
theorem eliminate_step (hnodup : order.keys.Nodup) {key : Key} {keys : List Key}
    (hsuffix : key :: keys <:+ order.keys) {pending : List (Key × LinearFactor ℝ)}
    (hready : ∀ e ∈ pending, Ready order dims (key :: keys) e) {c : Conditional ℝ}
    {u : Option (LinearFactor ℝ)}
    (h : Elimination.eliminate ((pending.filter fun e => e.1 = key).map Prod.snd) [key] dims
      order.positions = .ok (c, u)) :
    (∀ e ∈ pending.filter (fun e => !decide (e.1 = key)) ++ waiting u, Ready order dims keys e) ∧
      c.frontals = [key] ∧ c.dims = dims ∧ c.IsSolvable ∧ (∀ k ∈ c.separator, k ∈ keys) ∧
      ∃ rest : ℝ, ∀ x, pendingMisfit pending x = c.misfit x +
        pendingMisfit (pending.filter (fun e => !decide (e.1 = key)) ++ waiting u) x + rest := by
  have hmine : ∀ f ∈ (pending.filter fun e => e.1 = key).map Prod.snd,
      Waits order key f ∧ f.Fits dims := by
    intro f hf
    obtain ⟨e, he, rfl⟩ := List.mem_map.mp hf
    obtain ⟨he, hkey⟩ := List.mem_filter.mp he
    obtain ⟨hwaits, -, hfits⟩ := hready e he
    exact ⟨of_decide_eq_true hkey ▸ hwaits, hfits⟩
  have hlisted : ∀ f ∈ (pending.filter fun e => e.1 = key).map Prod.snd, ∀ k ∈ f.keys,
      k ∈ order.keys := fun f hf => (hmine f hf).1.listed
  obtain ⟨hfrontals, hdims, hseparator, hleft⟩ := Elimination.eliminate_keys h
  obtain ⟨hsolvable, hfits, rest, -, -, hsplit⟩ :=
    Elimination.eliminate_split h (List.nodup_singleton key) fun f hf => (hmine f hf).2
  -- a variable of the separator is one of a factor that waited, but not the one it waited for
  have hlater : ∀ k ∈ c.separator, k ∈ keys := by
    intro k hk
    obtain ⟨hne, f, hf, hkf⟩ := ((Elimination.separatorOf_eq_ok hseparator).2.1 k).mp hk
    have hlisted := hlisted f hf k hkf
    obtain ⟨before, hbefore⟩ := hsuffix
    refine (EliminationOrder.mem_after_iff hnodup hbefore k).mpr
      ⟨hlisted, lt_of_le_of_ne ((hmine f hf).1.first k hkf) fun heq => hne ?_⟩
    rw [← EliminationOrder.place_inj hlisted heq.symm]
    simp
  refine ⟨?_, hfrontals, hdims, hsolvable, hlater, rest, fun x => ?_⟩
  · intro e he
    rcases List.mem_append.mp he with he | he
    · obtain ⟨he, hne⟩ := List.mem_filter.mp he
      obtain ⟨hwaits, hmem, hfits⟩ := hready e he
      exact ⟨hwaits, (List.mem_cons.mp hmem).resolve_left (by simpa using hne), hfits⟩
    · obtain ⟨hu, hmem, hwaits⟩ := waits_of_mem_waiting h hlisted he
      exact ⟨hwaits, hlater _ hmem, hfits _ hu⟩
  · have hwaiting : pendingMisfit (waiting u) x = Elimination.leftMisfit u x :=
      pendingMisfit_waiting (fun f hf => (hleft f hf).2 ▸ (hleft f hf).1) x
    rw [pendingMisfit_partition pending key, hsplit, ← hwaiting]
    simp only [pendingMisfit, List.map_append, List.sum_append]
    ring

theorem eliminateAll_cons {α : Type} [Scalar α] (position : Table ℕ) (key : Key) (keys : List Key)
    (pending : List (Key × LinearFactor α)) : eliminateAll dims position (key :: keys) pending = (do
      let found ← Elimination.eliminate ((pending.filter fun e => e.1 = key).map Prod.snd) [key] dims
        position
      let rest ← eliminateAll dims position keys
        (pending.filter (fun e => !decide (e.1 = key)) ++ waiting found.2)
      return found.1 :: rest) := by
  rw [eliminateAll, List.partition_eq_filter_filter]
  rfl

/-- **A run that returns splits the problem**, also where a variable has the size zero. -/
theorem eliminateAll_splits (hnodup : order.keys.Nodup) {todo : List Key} (hsuffix : todo <:+ order.keys)
    {pending : List (Key × LinearFactor ℝ)} (hready : ∀ e ∈ pending, Ready order dims todo e)
    {cs : List (Conditional ℝ)} (h : eliminateAll dims order.positions todo pending = .ok cs) :
    Splits dims todo pending cs := by
  induction todo generalizing pending cs with
  | nil =>
    cases h
    have hnone : pending = [] := by
      cases pending with
      | nil => rfl
      | cons e pending => simpa using (hready e (by simp)).mem
    refine ⟨by simp, .nil _, by simp, 0, fun x => ?_⟩
    rw [hnone, pendingMisfit]
    simp
  | cons key keys ih =>
    have hrest : keys <:+ order.keys := (List.suffix_cons key keys).trans hsuffix
    rw [eliminateAll_cons] at h
    obtain ⟨⟨c, u⟩, heliminate, h⟩ := bind_eq_ok.mp h
    obtain ⟨cs, hcs, h⟩ := bind_eq_ok.mp h
    cases h
    obtain ⟨hnext, hfrontals, hcdims, hsolvable, hlater, rest, hsplit⟩ :=
      eliminate_step hnodup hsuffix hready heliminate
    have hsized := Elimination.eliminate_sized heliminate
    obtain ⟨hproper, hscheduled, hcovers, rest', hsplit'⟩ := ih hrest hnext hcs
    refine ⟨?_, ?_, ?_, rest + rest', fun x => ?_⟩
    · intro c' hc'
      rcases List.mem_cons.mp hc' with rfl | hc'
      · exact ⟨hsolvable, hcdims, hcdims ▸ hsized⟩
      · exact hproper c' hc'
    · rw [List.reverse_cons]
      have hfresh : key ∉ keys := (List.nodup_cons.mp (hsuffix.sublist.nodup hnodup)).1
      refine hscheduled.concat (hfrontals ▸ List.nodup_singleton key) ?_ ?_
      · intro k hk hmem
        rw [hfrontals, List.mem_singleton] at hk
        exact hfresh (hk ▸ (hcovers k).mp hmem)
      · exact fun k hk => (hcovers k).mpr (hlater k hk)
    · intro k
      rw [List.reverse_cons, List.flatMap_append, List.mem_append, hcovers, List.mem_cons]
      simp [hfrontals, or_comm]
    · rw [hsplit, hsplit', List.map_cons, List.sum_cons]
      ring

/-- **A run fails only where a variable is not determined**, unless one has the size zero. -/
theorem eliminateAll_error (hnodup : order.keys.Nodup)
    (hsized : ∀ key ∈ order.keys, ∃ n, dims.get? key = some n ∧ 0 < n) {todo : List Key}
    (hsuffix : todo <:+ order.keys) {pending : List (Key × LinearFactor ℝ)}
    (hready : ∀ e ∈ pending, Ready order dims todo e) {e : Error}
    (h : eliminateAll dims order.positions todo pending = .error e) :
    ∃ key ∈ todo, e = .indeterminate key := by
  induction todo generalizing pending with
  | nil => cases h
  | cons key keys ih =>
    have hkey : key ∈ order.keys := hsuffix.subset (by simp)
    have hrest : keys <:+ order.keys := (List.suffix_cons key keys).trans hsuffix
    have hmine : ∀ f ∈ (pending.filter fun e => e.1 = key).map Prod.snd,
        (∀ k ∈ f.keys, k ∈ order.keys) ∧ f.Fits dims := by
      intro f hf
      obtain ⟨e, he, rfl⟩ := List.mem_map.mp hf
      have := hready e (List.mem_filter.mp he).1
      exact ⟨this.waits.listed, this.fits⟩
    rw [eliminateAll_cons] at h
    cases heliminate : Elimination.eliminate ((pending.filter fun e => e.1 = key).map Prod.snd) [key]
        dims order.positions with
    | error e' =>
      obtain ⟨-, -, k, -, -, hk, -, rfl⟩ := Elimination.fails_of_listed heliminate hsized
        (List.cons_ne_nil _ _) (List.nodup_singleton key) (fun k hk => List.mem_singleton.mp hk ▸ hkey)
        (fun f hf => (hmine f hf).1) fun f hf => (hmine f hf).2
      rw [heliminate] at h
      cases h
      exact ⟨k, List.mem_singleton.mp hk ▸ by simp, rfl⟩
    | ok found =>
      obtain ⟨c, u⟩ := found
      obtain ⟨hnext, -⟩ := eliminate_step hnodup hsuffix hready heliminate
      rw [heliminate] at h
      cases hcs : eliminateAll dims order.positions keys
          (pending.filter (fun e => !decide (e.1 = key)) ++ waiting u) with
      | error e' =>
        simp only [bind, Except.bind, hcs] at h
        cases h
        obtain ⟨k, hk, he⟩ := ih hrest hnext hcs
        exact ⟨k, List.mem_cons_of_mem _ hk, he⟩
      | ok cs =>
        simp only [bind, Except.bind, hcs] at h
        cases h

theorem assign_ready {g : LinearGraph ℝ} (hg : g.Accords order.keys dims) :
    ∃ pending, assign order.positions g = .ok pending ∧
      pending.map Prod.snd = g.factors.filter (fun f => !f.keys.isEmpty) ∧
      ∀ e ∈ pending, Ready order dims order.keys e := by
  obtain ⟨pending, hassign, hfactors, hwaits⟩ := assign_eq_ok hg.listed
  refine ⟨pending, hassign, hfactors, fun e he => ?_⟩
  have hmem : e.2 ∈ g.factors := by
    have := hfactors ▸ List.mem_map_of_mem (f := Prod.snd) he
    exact (List.mem_filter.mp this).1
  exact ⟨hwaits e he, (hwaits e he).listed _ (hwaits e he).mem, hg.fits _ hmem⟩

/-- **Where elimination returns, it leads to the solution**, and the columns of the stacked matrix are
    independent. -/
theorem solution_of_eliminate {g : LinearGraph ℝ} (hg : g.Accords order.keys dims) {net : BayesNet ℝ}
    (h : eliminate order dims g = .ok net) :
    ∃ d, (do let delta ← net.optimize; delta.ordered order.keys) = .ok d ∧
      g.FullColumnRank order.keys dims ∧ g.IsSolvedBy order.keys dims d := by
  obtain ⟨pending, hassign, hfactors, hready⟩ := assign_ready hg
  rw [eliminate, hassign] at h
  obtain ⟨_, hsame, h⟩ := bind_eq_ok.mp h
  cases hsame
  obtain ⟨cs, hcs, h⟩ := bind_eq_ok.mp h
  cases h
  obtain ⟨hproper, hscheduled, hcovers, rest, hsplit⟩ :=
    eliminateAll_splits hg.nodup (List.suffix_refl _) hready hcs
  obtain ⟨rest', -, hsplit'⟩ := LinearGraph.misfit_eq_filter hg
  have hpending : ∀ x, pendingMisfit pending x =
      ((g.factors.filter fun f => !f.keys.isEmpty).map (LinearFactor.misfit x)).sum := by
    intro x
    rw [← hfactors, List.map_map]
    rfl
  have hmisfit : ∀ x, g.misfit x =
      (cs.reverse.map (Conditional.misfit · x)).sum + (rest + rest') := fun x => by
    rw [hsplit', ← hpending, hsplit, List.map_reverse, List.sum_reverse, add_assoc]
  exact LinearGraph.exists_isSolvedBy_of_schedule hg hscheduled
    (fun c hc => hproper c (List.mem_reverse.mp hc)) hcovers hmisfit

/-- **Elimination either meets a variable that is not determined, or leads to the solution**, which
    is only there when the columns of the stacked matrix are independent. -/
theorem eliminate_spec {g : LinearGraph ℝ} (hg : g.Fits order.keys dims) :
    (∃ key ∈ order.keys, eliminate order dims g = .error (.indeterminate key)) ∨
      ∃ net d, eliminate order dims g = .ok net ∧
        (do let delta ← net.optimize; delta.ordered order.keys) = .ok d ∧
        g.FullColumnRank order.keys dims ∧ g.IsSolvedBy order.keys dims d := by
  cases h : eliminate order dims g with
  | error e =>
    obtain ⟨pending, hassign, -, hready⟩ := assign_ready hg.accords
    have hall : eliminateAll dims order.positions order.keys pending = .error e := by
      simp only [eliminate, hassign, bind, Except.bind] at h
      split at h
      · next herror =>
        cases h
        exact herror
      · cases h
    obtain ⟨key, hkey, rfl⟩ :=
      eliminateAll_error hg.nodup hg.sized (List.suffix_refl _) hready hall
    exact .inl ⟨key, hkey, rfl⟩
  | ok net =>
    obtain ⟨d, hd, hsolved⟩ := solution_of_eliminate hg.accords h
    exact .inr ⟨net, d, rfl, hd, hsolved⟩

end BayesNet

namespace SequentialSolver

theorem isSolvedBy_of_solve (s : SequentialSolver ℝ) {g : LinearGraph ℝ}
    (hg : g.Accords s.order.keys s.dims) {d : Delta ℝ} (h : (s.solve g).result = .ok d) :
    g.IsSolvedBy s.order.keys s.dims d := by
  rw [solve] at h
  split at h
  · cases h
  · next net hnet =>
    obtain ⟨d', hd', -, hsolved⟩ := BayesNet.solution_of_eliminate hg hnet
    simp only at h
    rw [h, Except.ok.injEq] at hd'
    exact hd' ▸ hsolved

theorem solve_cases (s : SequentialSolver ℝ) {g : LinearGraph ℝ} (hg : g.Fits s.order.keys s.dims) :
    (∃ key ∈ s.order.keys, (s.solve g).result = .error (.indeterminate key)) ∨
      ∃ d, (s.solve g).result = .ok d ∧ g.FullColumnRank s.order.keys s.dims ∧
        g.IsSolvedBy s.order.keys s.dims d := by
  rcases BayesNet.eliminate_spec hg with ⟨key, hkey, herror⟩ | ⟨net, d, hnet, hd, hsolved⟩
  · exact .inl ⟨key, hkey, by simp only [solve, herror]⟩
  · exact .inr ⟨d, by simp only [solve, hnet]; exact hd, hsolved⟩

/-- **The solver returns the least-squares solution or names a variable that is not determined.**  It
    returns only when the stacked matrix has full column rank, and then the step, in the order of
    elimination, is the only one of least cost and the only solution of the normal equations.  When
    the matrix lacks full column rank, a variable is named. -/
theorem solve_isSolvedBy (s : SequentialSolver ℝ) (g : LinearGraph ℝ)
    (hg : g.Fits s.order.keys s.dims) :
    (∀ d, (s.solve g).result = .ok d →
      g.FullColumnRank s.order.keys s.dims ∧ g.IsSolvedBy s.order.keys s.dims d) ∧
    (∀ e, (s.solve g).result = .error e → ∃ key ∈ s.order.keys, e = .indeterminate key) ∧
    (¬ g.FullColumnRank s.order.keys s.dims →
      ∃ key ∈ s.order.keys, (s.solve g).result = .error (.indeterminate key)) := by
  rcases s.solve_cases hg with ⟨key, hkey, hresult⟩ | ⟨d, hresult, hrank, hsolved⟩
  · rw [hresult]
    refine ⟨fun d hd => (by cases hd), fun e he => ?_, fun _ => ⟨key, hkey, rfl⟩⟩
    cases he
    exact ⟨key, hkey, rfl⟩
  · rw [hresult]
    refine ⟨fun d' hd' => ?_, fun e he => (by cases he), fun hnot => (hnot hrank).elim⟩
    cases hd'
    exact ⟨hrank, hsolved⟩

end SequentialSolver

/-! ### Three numbers -/

namespace Meeting

open Elimination

theorem fits : problem.Fits inTurn.keys sizes := by
  constructor
  · decide
  · have hsize : ∀ key ∈ inTurn.keys, sizes.get? key = some 1 := by decide
    exact fun key hkey => ⟨1, hsize key hkey, Nat.one_pos⟩
  · intro f hf
    have hfactor : f = first ∨ f = second := by simpa [problem] using hf
    rcases hfactor with rfl | rfl
    · refine ⟨by decide, List.forall_mem_cons.mpr ⟨?_, List.forall_mem_singleton.mpr ?_⟩⟩
      · exact ⟨rfl, rfl, by simp [Mat.IsRectangular]⟩
      · exact ⟨rfl, rfl, by simp [Mat.IsRectangular]⟩
    · refine ⟨by decide, List.forall_mem_cons.mpr ⟨?_, List.forall_mem_singleton.mpr ?_⟩⟩
      · exact ⟨rfl, rfl, by simp [Mat.IsRectangular]⟩
      · exact ⟨rfl, rfl, by simp [Mat.IsRectangular]⟩
  · decide

theorem eliminate_third : eliminate [equation (.number 2) 2 4] [.number 2] sizes inTurn.positions =
    .ok (⟨[.number 2], [], sizes, ⟨1, [[2]]⟩, ⟨0, [[]]⟩, [4]⟩, none) :=
  eliminate_equation rfl inTurn.positions (by norm_num)

/-- What the first number leaves waits for the third, which is eliminated from it alone. -/
theorem sequential_eliminate : BayesNet.eliminate inTurn sizes problem =
    .ok ⟨[⟨[.number 0], [.number 2], sizes, ⟨1, [[1]]⟩, ⟨1, [[1]]⟩, [0]⟩,
      ⟨[.number 1], [.number 2], sizes, ⟨1, [[1]]⟩, ⟨1, [[1]]⟩, [0]⟩,
      ⟨[.number 2], [], sizes, ⟨1, [[2]]⟩, ⟨0, [[]]⟩, [4]⟩]⟩ := by
  have hassign : BayesNet.assign inTurn.positions problem =
      .ok [(.number 0, first), (.number 1, second)] := rfl
  have hkeys : inTurn.keys = [.number 0, .number 1, .number 2] := rfl
  have hwaiting : BayesNet.waiting (some (equation (.number 2) 2 4)) =
      [(.number 2, equation (.number 2) 2 4)] := rfl
  have hnone : BayesNet.waiting (none : Option (LinearFactor ℝ)) = [] := rfl
  simp only [BayesNet.eliminate, hassign, bind, Except.bind, hkeys, BayesNet.eliminateAll_cons]
  simp [eliminate_first, eliminate_second, eliminate_third, hwaiting, hnone, BayesNet.eliminateAll, pure,
    Except.pure]

theorem misfit_problem (x : Assignment) : problem.misfit x =
    (x (.number 0) 0 + x (.number 2) 0) ^ 2 + (2 * x (.number 2) 0 - 4) ^ 2 +
      (x (.number 1) 0 + x (.number 2) 0) ^ 2 := by
  have hfirst : first.missed x = [-0 + (1 * x (.number 0) 0 + 0) + (1 * x (.number 2) 0 + 0),
      -4 + (0 * x (.number 0) 0 + 0) + (2 * x (.number 2) 0 + 0)] := rfl
  have hsecond : second.missed x = [-0 + (1 * x (.number 1) 0 + 0) + (1 * x (.number 2) 0 + 0)] := rfl
  simp only [problem, LinearGraph.misfit, List.map_cons, List.map_nil, List.sum_cons, List.sum_nil,
    LinearFactor.misfit, hfirst, hsecond, squares_cons, squares_nil]
  ring

/-- The three numbers that miss nothing are the only ones that miss least. -/
theorem eq_of_isSolvedBy {d : Delta ℝ} (h : problem.IsSolvedBy inTurn.keys sizes d) :
    d = ⟨[(.number 0, [-2]), (.number 1, [-2]), (.number 2, [2])]⟩ := by
  obtain ⟨hd, hlength⟩ := h.lists.eq_pieces fits.nodup
  obtain ⟨u, v, w, huvw⟩ : ∃ u v w, d.vector = [u, v, w] := List.length_eq_three.mp hlength
  rw [huvw] at hd
  have hpieces : d = ⟨[(.number 0, [u]), (.number 1, [v]), (.number 2, [w])]⟩ := hd
  have hvalues : d.assignment (.number 0) 0 = u ∧ d.assignment (.number 1) 0 = v ∧
      d.assignment (.number 2) 0 = w := by
    rw [hpieces]
    exact ⟨rfl, rfl, rfl⟩
  obtain ⟨hu, hv, hw⟩ := hvalues
  have hleast := h.misfit_le fits.accords fun key _ => if key = .number 2 then 2 else -2
  have hne : ¬ (.number 0 : Key) = .number 2 := by decide
  have hne' : ¬ (.number 1 : Key) = .number 2 := by decide
  simp only [misfit_problem, hu, hv, hw, if_neg hne, if_neg hne', if_true] at hleast
  have hthird : 2 * w - 4 = 0 := by
    apply (sq_nonpos_iff _).mp
    linarith [sq_nonneg (u + w), sq_nonneg (v + w)]
  have hfirst : u + w = 0 := by
    apply (sq_nonpos_iff _).mp
    linarith [sq_nonneg (2 * w - 4), sq_nonneg (v + w)]
  have hsecond : v + w = 0 := by
    apply (sq_nonpos_iff _).mp
    linarith [sq_nonneg (2 * w - 4), sq_nonneg (u + w)]
  obtain rfl : w = 2 := by linarith
  obtain rfl : u = -2 := by linarith
  obtain rfl : v = -2 := by linarith
  exact hpieces

end Meeting

namespace SequentialSolver

/-- Elimination leads from the third number back to the first two. -/
theorem meeting_isSolvedBy :
    let s : SequentialSolver ℝ := ⟨Meeting.inTurn, Meeting.sizes, none⟩
    let d : Delta ℝ := ⟨[(.number 0, [-2]), (.number 1, [-2]), (.number 2, [2])]⟩
    Meeting.problem.Fits s.order.keys s.dims ∧ (s.solve Meeting.problem).result = .ok d ∧
      Meeting.problem.FullColumnRank s.order.keys s.dims ∧
      Meeting.problem.IsSolvedBy s.order.keys s.dims d := by
  intro s d
  obtain ⟨found, hfound, -, hsolved⟩ :=
    BayesNet.solution_of_eliminate Meeting.fits.accords Meeting.sequential_eliminate
  obtain rfl := Meeting.eq_of_isSolvedBy hsolved
  have hresult : (s.solve Meeting.problem).result = .ok d := by
    have heliminate : BayesNet.eliminate s.order s.dims Meeting.problem = .ok _ :=
      Meeting.sequential_eliminate
    simp only [solve, heliminate]
    exact hfound
  exact ⟨Meeting.fits, hresult, (solve_isSolvedBy s Meeting.problem Meeting.fits).1 d hresult⟩

end SequentialSolver

end LeastSquares
