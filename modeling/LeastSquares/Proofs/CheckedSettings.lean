/-
  LeastSquares/Proofs/CheckedSettings.lean
  ========================================
  **Settings are within their limits, however often they are changed.**

  Each field is read by its own name alone.  So a changed copy, which is read anew from the fields of the
  settings with the changes before them, has what the changes give where they name a field, and what the
  settings have elsewhere, and two changes in a row are one change.  Every default passes its own check, and
  what settings are written out as is read back as these settings; this is why the limits hold on.

  The factor of the damping is the exception: it is refused when it is at most one, which a NaN is not.
-/
import LeastSquares.Parameters
import LeastSquares.Proofs.Doubles
import LeastSquares.Proofs.Steps

namespace LeastSquares

variable {α : Type}

namespace Setting

/-! ### Single fields -/

theorem lookup_eq_none_iff {name : String} {fields : List (String × Given α)} :
    fields.lookup name = none ↔ name ∉ fields.map Prod.fst := by
  rw [List.lookup_eq_none_iff, List.mem_map, not_exists]
  simp only [bne_iff_ne, ne_eq, not_and, eq_comm (a := name)]

/-- Lists of fields that agree in the field of a name. -/
theorem lookup_eq_of_forall₂ {name : String} {fields others : List (String × Given α)}
    (h : List.Forall₂ (fun x y => x.1 = y.1 ∧ (x.1 = name → x.2 = y.2)) fields others) :
    fields.lookup name = others.lookup name := by
  induction h with
  | nil => rfl
  | @cons x y fields others hxy _ ih =>
    obtain ⟨key, given⟩ := x
    obtain ⟨key', given'⟩ := y
    obtain ⟨hkey, hvalue⟩ : key = key' ∧ (key = name → given = given') := hxy
    subst hkey
    by_cases hname : name = key
    · rw [hvalue hname.symm]
      simp [hname]
    · have hother : (name == key) = false := beq_false_of_ne hname
      simp only [List.lookup_cons, hother, ih]

/-- What is read of fields depends on the field of one name. -/
def DependsOn {β : Type} (name : String) (read : List (String × Given α) → β) : Prop :=
  ∀ fields others, fields.lookup name = others.lookup name → read fields = read others

section

variable {β : Type} {name : String} {read : List (String × Given α) → β} {fields others : List (String × Given α)}

theorem dependsOn_field {path : List String} {default : β} {read : Given α → Except IssueKind β} :
    DependsOn name fun fields => field fields path name default read := by
  intro fields others h
  simp only [field, h]

/-- Further fields before the same ones leave no difference. -/
theorem DependsOn.append (h : DependsOn name read) (hread : read fields = read others)
    (changes : List (String × Given α)) : read (changes ++ fields) = read (changes ++ others) := by
  cases hchange : changes.lookup name with
  | none =>
    have hpassed : ∀ rest, read (changes ++ rest) = read rest := fun rest =>
      h _ _ (by rw [List.lookup_append, hchange, Option.none_or])
    rw [hpassed, hpassed, hread]
  | some given =>
    refine h _ _ ?_
    rw [List.lookup_append, List.lookup_append, hchange, Option.some_or, Option.some_or]

theorem DependsOn.append_of_notMem (h : DependsOn name read) {changes : List (String × Given α)}
    (hname : name ∉ changes.map Prod.fst) : read (changes ++ fields) = read fields := by
  have hchange : changes.lookup name = none := lookup_eq_none_iff.mpr hname
  exact h _ _ (by rw [List.lookup_append, hchange, Option.none_or])

theorem field_of_lookup {path : List String} {default value : β} {given : Given α}
    {read : Given α → Except IssueKind β} (h : fields.lookup name = some given) (hread : read given = .ok value) :
    field fields path name default read = .ok value := by
  simp only [field, h, hread]

/-- What holds of the default and of all that can be read holds of the field. -/
theorem of_field {path : List String} {default value : β} {read : Given α → Except IssueKind β} {P : β → Prop}
    (hdefault : P default) (hread : ∀ given value, read given = .ok value → P value)
    (h : field fields path name default read = .ok value) : P value := by
  simp only [field] at h
  split at h
  · cases h
    exact hdefault
  · split at h
    · next hvalue =>
      cases h
      exact hread _ _ hvalue
    · cases h

end

/-! ### Choices -/

theorem toChoice_damping (mode : DampingMode) :
    toChoice DampingMode.named? .enumeration (.text mode.name : Given α) = .ok mode := by
  cases mode <;> simp [toChoice, DampingMode.named?, DampingMode.name]

theorem toChoice_spanningTree (tree : SpanningTree) :
    toChoice SpanningTree.named? .literal (.text tree.name : Given α) = .ok tree := by
  cases tree <;> simp [toChoice, SpanningTree.named?, SpanningTree.name]

/-! ### Limits -/

variable [Scalar α]

/-- The numbers that a limit lets pass. -/
def Limit.Allows : Limit → α → Prop
  | free, _ => True
  | positive, x => 0 < x
  | nonnegative, x => 0 ≤ x
  | notAtMostOne, x => ¬ x ≤ 1

theorem Limit.check_eq_ok_iff {limit : Limit} {x y : α} : limit.check x = .ok y ↔ limit.Allows x ∧ x = y := by
  cases limit with
  | free => simp [check, Allows]
  | positive | nonnegative =>
    simp only [check, Allows]
    split_ifs with h <;> simp [h]
  | notAtMostOne =>
    simp only [check, Allows]
    split_ifs with h <;> simp [h]

theorem toLimited_real {limit : Limit} {x : α} (h : limit.Allows x) : toLimited limit (.real x) = .ok x :=
  Limit.check_eq_ok_iff.mpr ⟨h, rfl⟩

theorem allows_of_toLimited {limit : Limit} {given : Given α} {x : α} (h : toLimited limit given = .ok x) :
    limit.Allows x := by
  obtain ⟨y, -, hcheck⟩ := bind_eq_ok.mp h
  obtain ⟨hallows, rfl⟩ := Limit.check_eq_ok_iff.mp hcheck
  exact hallows

theorem allows_of_field (limit : Limit) {fields : List (String × Given α)} {path : List String} {name : String}
    {default x : α} (hdefault : limit.Allows default)
    (h : field fields path name default (toLimited limit) = .ok x) : limit.Allows x :=
  of_field hdefault (fun _ _ => allows_of_toLimited) h

theorem positive_of_toCount {given : Given α} {n : ℕ} (h : toCount given = .ok n) : 1 ≤ n := by
  obtain ⟨m, -, hcheck⟩ := bind_eq_ok.mp h
  rw [positiveNat] at hcheck
  split_ifs at hcheck with hpositive
  cases hcheck
  omega

theorem positive_of_field {fields : List (String × Given α)} {path : List String} {name : String} {default n : ℕ}
    (hdefault : 1 ≤ default) (h : field fields path name default toCount = .ok n) : 1 ≤ n :=
  of_field hdefault (fun _ _ => positive_of_toCount) h

theorem toCount_natCast {n : ℕ} (h : 1 ≤ n) : toCount (.integer n : Given α) = .ok n := by
  have hpositive : n ≠ 0 := by omega
  simp [toCount, toInteger, positiveNat, hpositive, bind, Except.bind]

theorem toVerbosity_level (v : Verbosity) : toVerbosity (.integer v.level : Given α) = .ok v := by
  have hword : isWord v.level = true := by cases v <;> decide
  simp only [toVerbosity, if_pos hword, levelOf, Verbosity.ofLevel?_level]

end Setting

namespace Given

variable [Scalar α]

theorem fieldsWithNumbers_append (fields others : List (String × Given α)) :
    fieldsWithNumbers (fields ++ others) = fieldsWithNumbers fields ++ fieldsWithNumbers others := by
  induction fields with
  | nil => rfl
  | cons row fields ih => rw [List.cons_append, fieldsWithNumbers, fieldsWithNumbers, ih, List.cons_append]

theorem names_fieldsWithNumbers (fields : List (String × Given α)) :
    (fieldsWithNumbers fields).map Prod.fst = fields.map Prod.fst := by
  induction fields with
  | nil => rfl
  | cons row fields ih => rw [fieldsWithNumbers, List.map_cons, List.map_cons, ih]

end Given

open Setting (field field_of_lookup toLimited toCount toChoice toVerbosity)

variable [Scalar α]

namespace IterativeParameters

/-- The fields give these settings of the iterative solver. -/
structure Gives (path : List String) (fields : List (String × Given α)) (p : IterativeParameters α) : Prop where
  maxIterations : field fields path "max_iterations" 100 toCount = .ok p.maxIterations
  epsilonRel : field fields path "epsilon_rel" 1e-3 (toLimited .positive) = .ok p.epsilonRel
  epsilonAbs : field fields path "epsilon_abs" 1e-3 (toLimited .nonnegative) = .ok p.epsilonAbs
  spanningTree : field fields path "spanning_tree" .minimum (toChoice SpanningTree.named? .literal) =
    .ok p.spanningTree

theorem readFields_eq_ok_iff {path : List String} {fields : List (String × Given α)} {p : IterativeParameters α} :
    readFields path fields = .ok p ↔ p.Gives path fields := by
  constructor
  · intro h
    simp only [readFields, Setting.whenClean] at h
    split_ifs at h with hclean
    simp only [bind_eq_ok] at h
    obtain ⟨_, h1, _, h2, _, h3, _, h4, hp⟩ := h
    cases hp
    exact ⟨h1, h2, h3, h4⟩
  · rintro ⟨h1, h2, h3, h4⟩
    simp only [readFields, h1, h2, h3, h4]
    rfl

/-- Settings of the iterative solver that are within their limits. -/
structure IsWithin (p : IterativeParameters α) : Prop where
  maxIterations : 1 ≤ p.maxIterations
  epsilonRel : 0 < p.epsilonRel
  epsilonAbs : 0 ≤ p.epsilonAbs

variable {path : List String} {fields : List (String × Given α)} {p : IterativeParameters α}

theorem Gives.isWithin (h : p.Gives path fields) (hstandard : (standard : IterativeParameters α).IsWithin) :
    p.IsWithin where
  maxIterations := Setting.positive_of_field hstandard.maxIterations h.maxIterations
  epsilonRel := Setting.allows_of_field .positive hstandard.epsilonRel h.epsilonRel
  epsilonAbs := Setting.allows_of_field .nonnegative hstandard.epsilonAbs h.epsilonAbs

/-- Settings are read back from what they are written out as. -/
theorem IsWithin.gives_dump (h : p.IsWithin) (path : List String) : p.Gives path p.dump where
  maxIterations := field_of_lookup (by simp [dump]) (Setting.toCount_natCast h.maxIterations)
  epsilonRel := field_of_lookup (by simp [dump, List.lookup_cons]) (Setting.toLimited_real h.epsilonRel)
  epsilonAbs := field_of_lookup (by simp [dump, List.lookup_cons]) (Setting.toLimited_real h.epsilonAbs)
  spanningTree := field_of_lookup (by simp [dump, List.lookup_cons]) (Setting.toChoice_spanningTree _)

theorem dependsOn_readNested : Setting.DependsOn "iterative" (readNested (α := α)) := by
  intro fields others h
  simp only [readNested, h]

theorem isWithin_of_readNested (hstandard : (standard : IterativeParameters α).IsWithin)
    (h : readNested fields = .ok p) : p.IsWithin := by
  simp only [readNested] at h
  split at h
  · cases h
    exact hstandard
  · exact (readFields_eq_ok_iff.mp h).isWithin hstandard
  · cases h

end IterativeParameters

namespace Parameters

/-- The fields give these settings. -/
structure Gives (fields : List (String × Given α)) (p : Parameters α) : Prop where
  absoluteDecrease : field fields [] "absolute_decrease" 1e-5 (toLimited .nonnegative) = .ok p.absoluteDecrease
  relativeDecrease : field fields [] "relative_decrease" 1e-5 (toLimited .nonnegative) = .ok p.relativeDecrease
  sumError : field fields [] "sum_error" 0 (toLimited .nonnegative) = .ok p.sumError
  maxIterations : field fields [] "max_iterations" 100 toCount = .ok p.maxIterations
  lambdaInitial : field fields [] "lambda_initial" 1e-5 (toLimited .positive) = .ok p.lambdaInitial
  lambdaFactor : field fields [] "lambda_factor" 10.0 (toLimited .notAtMostOne) = .ok p.lambdaFactor
  lambdaUpperBound : field fields [] "lambda_upper_bound" 1e5 (toLimited .positive) = .ok p.lambdaUpperBound
  lambdaMode : field fields [] "lambda_mode" .bounded (toChoice DampingMode.named? .enumeration) = .ok p.lambdaMode
  verbosity : field fields [] "verbosity" .silent toVerbosity = .ok p.verbosity
  iterative : IterativeParameters.readNested fields = .ok p.iterative

/-- Settings that are within their limits. -/
structure IsWithin (p : Parameters α) : Prop where
  absoluteDecrease : 0 ≤ p.absoluteDecrease
  relativeDecrease : 0 ≤ p.relativeDecrease
  sumError : 0 ≤ p.sumError
  maxIterations : 1 ≤ p.maxIterations
  lambdaInitial : 0 < p.lambdaInitial
  /-- A NaN is not at most one either. -/
  lambdaFactor : ¬ p.lambdaFactor ≤ 1
  lambdaUpperBound : 0 < p.lambdaUpperBound
  iterative : p.iterative.IsWithin

variable {fields others changes : List (String × Given α)} {p q : Parameters α}

theorem readFields_eq_ok_iff : readFields fields = .ok p ↔ p.Gives fields := by
  constructor
  · intro h
    simp only [readFields, Setting.whenClean] at h
    split_ifs at h with hclean
    simp only [bind_eq_ok] at h
    obtain ⟨_, h1, _, h2, _, h3, _, h4, _, h5, _, h6, _, h7, _, h8, _, h9, _, h10, hp⟩ := h
    cases hp
    exact ⟨h1, h2, h3, h4, h5, h6, h7, h8, h9, h10⟩
  · rintro ⟨h1, h2, h3, h4, h5, h6, h7, h8, h9, h10⟩
    simp only [readFields, h1, h2, h3, h4, h5, h6, h7, h8, h9, h10]
    rfl

theorem Gives.isWithin (h : p.Gives fields) (hstandard : (standard : Parameters α).IsWithin) : p.IsWithin where
  absoluteDecrease := Setting.allows_of_field .nonnegative hstandard.absoluteDecrease h.absoluteDecrease
  relativeDecrease := Setting.allows_of_field .nonnegative hstandard.relativeDecrease h.relativeDecrease
  sumError := Setting.allows_of_field .nonnegative hstandard.sumError h.sumError
  maxIterations := Setting.positive_of_field hstandard.maxIterations h.maxIterations
  lambdaInitial := Setting.allows_of_field .positive hstandard.lambdaInitial h.lambdaInitial
  lambdaFactor := Setting.allows_of_field .notAtMostOne hstandard.lambdaFactor h.lambdaFactor
  lambdaUpperBound := Setting.allows_of_field .positive hstandard.lambdaUpperBound h.lambdaUpperBound
  iterative := IterativeParameters.isWithin_of_readNested hstandard.iterative h.iterative

theorem IsWithin.gives_dump (h : p.IsWithin) : p.Gives p.dump where
  absoluteDecrease := field_of_lookup (by simp [dump]) (Setting.toLimited_real h.absoluteDecrease)
  relativeDecrease := field_of_lookup (by simp [dump, List.lookup_cons]) (Setting.toLimited_real h.relativeDecrease)
  sumError := field_of_lookup (by simp [dump, List.lookup_cons]) (Setting.toLimited_real h.sumError)
  maxIterations := field_of_lookup (by simp [dump, List.lookup_cons]) (Setting.toCount_natCast h.maxIterations)
  lambdaInitial := field_of_lookup (by simp [dump, List.lookup_cons]) (Setting.toLimited_real h.lambdaInitial)
  lambdaFactor := field_of_lookup (by simp [dump, List.lookup_cons]) (Setting.toLimited_real h.lambdaFactor)
  lambdaUpperBound := field_of_lookup (by simp [dump, List.lookup_cons]) (Setting.toLimited_real h.lambdaUpperBound)
  lambdaMode := field_of_lookup (by simp [dump, List.lookup_cons]) (Setting.toChoice_damping _)
  verbosity := field_of_lookup (by simp [dump, List.lookup_cons]) (Setting.toVerbosity_level _)
  iterative := by
    have hlookup : p.dump.lookup "iterative" = some (.record p.iterative.dump) := by simp [dump, List.lookup_cons]
    simp only [IterativeParameters.readNested, hlookup]
    exact IterativeParameters.readFields_eq_ok_iff.mpr (h.iterative.gives_dump _)

/-- Fields that give the same settings do so behind the same changes. -/
theorem Gives.append (h : p.Gives fields) (h' : p.Gives others) (changes : List (String × Given α)) :
    (readFields (changes ++ fields) : Setting.Reading (Parameters α)) = readFields (changes ++ others) := by
  have hfield : ∀ {β : Type} {name : String} {default value : β} {read : Given α → Except IssueKind β},
      field fields [] name default read = .ok value → field others [] name default read = .ok value →
        field (changes ++ fields) [] name default read = field (changes ++ others) [] name default read :=
    fun h h' => Setting.dependsOn_field.append (h.trans h'.symm) changes
  have hiterative : IterativeParameters.readNested (changes ++ fields) =
      IterativeParameters.readNested (changes ++ others) :=
    IterativeParameters.dependsOn_readNested.append (h.iterative.trans h'.iterative.symm) changes
  simp only [readFields, hfield h.absoluteDecrease h'.absoluteDecrease,
    hfield h.relativeDecrease h'.relativeDecrease, hfield h.sumError h'.sumError,
    hfield h.maxIterations h'.maxIterations, hfield h.lambdaInitial h'.lambdaInitial,
    hfield h.lambdaFactor h'.lambdaFactor, hfield h.lambdaUpperBound h'.lambdaUpperBound,
    hfield h.lambdaMode h'.lambdaMode, hfield h.verbosity h'.verbosity, hiterative]

/-- A field that is not named in the changes keeps its value. -/
theorem Gives.lookup_dump (hq : q.Gives (changes ++ p.dump)) (hp : p.Gives p.dump) {name : String}
    (hname : name ∉ changes.map Prod.fst) : q.dump.lookup name = p.dump.lookup name := by
  have hkept : ∀ {β : Type} {own : String} {default new old : β} {read : Given α → Except IssueKind β},
      field (changes ++ p.dump) [] own default read = .ok new → field p.dump [] own default read = .ok old →
        own = name → new = old := by
    rintro β own default new old read hnew hold rfl
    rw [Setting.dependsOn_field.append_of_notMem hname, hold] at hnew
    exact (Except.ok.inj hnew).symm
  have hiterative : "iterative" = name → q.iterative = p.iterative := by
    rintro rfl
    have hnew := hq.iterative
    rw [IterativeParameters.dependsOn_readNested.append_of_notMem hname, hp.iterative] at hnew
    exact (Except.ok.inj hnew).symm
  refine Setting.lookup_eq_of_forall₂ ?_
  refine .cons ⟨rfl, fun h => congrArg Given.real (hkept hq.absoluteDecrease hp.absoluteDecrease h)⟩ ?_
  refine .cons ⟨rfl, fun h => congrArg Given.real (hkept hq.relativeDecrease hp.relativeDecrease h)⟩ ?_
  refine .cons ⟨rfl, fun h => congrArg Given.real (hkept hq.sumError hp.sumError h)⟩ ?_
  refine .cons ⟨rfl, fun h => congrArg (fun n : ℕ => Given.integer n)
    (hkept hq.maxIterations hp.maxIterations h)⟩ ?_
  refine .cons ⟨rfl, fun h => congrArg Given.real (hkept hq.lambdaInitial hp.lambdaInitial h)⟩ ?_
  refine .cons ⟨rfl, fun h => congrArg Given.real (hkept hq.lambdaFactor hp.lambdaFactor h)⟩ ?_
  refine .cons ⟨rfl, fun h => congrArg Given.real (hkept hq.lambdaUpperBound hp.lambdaUpperBound h)⟩ ?_
  refine .cons ⟨rfl, fun h => congrArg (Given.text ·.name) (hkept hq.lambdaMode hp.lambdaMode h)⟩ ?_
  refine .cons ⟨rfl, fun h => congrArg (Given.integer ·.level) (hkept hq.verbosity hp.verbosity h)⟩ ?_
  exact .cons ⟨rfl, fun h => congrArg (Given.record ·.dump) (hiterative h)⟩ .nil

/-! ### Reading and changing -/

theorem read_eq_ok_iff : read fields = .ok p ↔ p.Gives (Given.fieldsWithNumbers fields) := by
  rw [← readFields_eq_ok_iff, read]
  cases readFields (Given.fieldsWithNumbers fields) <;> simp [Except.mapError]

/-- Settings are written out in numbers, and in texts that do not spell one. -/
theorem fieldsWithNumbers_dump (p : Parameters α) : Given.fieldsWithNumbers p.dump = p.dump := by
  have hmode : Given.named? (α := α) p.lambdaMode.name = none := by
    cases p.lambdaMode <;> simp [Given.named?, DampingMode.name]
  have htree : Given.named? (α := α) p.iterative.spanningTree.name = none := by
    cases p.iterative.spanningTree <;> simp [Given.named?, SpanningTree.name]
  simp only [dump, IterativeParameters.dump, Given.fieldsWithNumbers, Given.withNumbers, hmode, htree]

theorem read_changed (p : Parameters α) (changes : List (String × Given α)) :
    read (changes ++ p.dump) = (readFields (Given.fieldsWithNumbers changes ++ p.dump)).mapError .settings := by
  rw [read, Given.fieldsWithNumbers_append, fieldsWithNumbers_dump]

theorem withUpdates_eq_ok_iff : p.withUpdates changes = .ok q ↔
    changes.lookup receiver = none ∧ read (changes ++ p.dump) = .ok q := by
  rw [withUpdates]
  cases changes.lookup receiver <;> simp

/-- **Two changes in a row are one.** -/
theorem withUpdates_withUpdates (hq : p.withUpdates changes = .ok q) (hwithin : q.IsWithin)
    (later : List (String × Given α)) : q.withUpdates later = p.withUpdates (later ++ changes) := by
  obtain ⟨hreceiver, hread⟩ := withUpdates_eq_ok_iff.mp hq
  have hgives : q.Gives (Given.fieldsWithNumbers changes ++ p.dump) := by
    rwa [read_eq_ok_iff, Given.fieldsWithNumbers_append, fieldsWithNumbers_dump] at hread
  have hreads : (read (later ++ q.dump) : Except Error (Parameters α)) = read (later ++ changes ++ p.dump) := by
    rw [read_changed, read_changed, hwithin.gives_dump.append hgives, Given.fieldsWithNumbers_append,
      List.append_assoc]
  rw [withUpdates, withUpdates, List.lookup_append, hreceiver, Option.or_none, hreads]

/-- **A field that is not named in a change keeps its value.** -/
theorem lookup_dump_of_withUpdates (hq : p.withUpdates changes = .ok q) (hwithin : p.IsWithin) {name : String}
    (hname : name ∉ changes.map Prod.fst) : q.dump.lookup name = p.dump.lookup name := by
  have hread := (withUpdates_eq_ok_iff.mp hq).2
  rw [read_eq_ok_iff, Given.fieldsWithNumbers_append, fieldsWithNumbers_dump] at hread
  exact hread.lookup_dump hwithin.gives_dump (by rwa [Given.names_fieldsWithNumbers])

/-- Settings as they can be had: read, changed, or with other thresholds. -/
inductive Obtained : Parameters α → Prop where
  | read {fields : List (String × Given α)} {p : Parameters α} (h : read fields = .ok p) : Obtained p
  | withUpdates {changes : List (String × Given α)} {p q : Parameters α} (hp : Obtained p)
      (h : p.withUpdates changes = .ok q) : Obtained q
  | ofThresholds {given : List (Given α)} {p : Parameters α} (h : ofThresholds given = .ok p) : Obtained p

/-- However settings are had, they are read at last. -/
theorem Obtained.exists_read (h : p.Obtained) :
    ∃ fields : List (String × Given α), Parameters.read fields = .ok p := by
  cases h with
  | read h => exact ⟨_, h⟩
  | withUpdates hp h => exact ⟨_, (withUpdates_eq_ok_iff.mp h).2⟩
  | ofThresholds h =>
    unfold Parameters.ofThresholds at h
    split at h
    · exact ⟨_, h⟩
    · exact ⟨_, h⟩
    · cases h

theorem Obtained.isWithin (h : p.Obtained) (hstandard : (standard : Parameters α).IsWithin) : p.IsWithin := by
  obtain ⟨fields, hread⟩ := h.exists_read
  exact (read_eq_ok_iff.mp hread).isWithin hstandard

/-! ### Settings in doubles -/

/-- Every default passes its own check. -/
theorem isWithin_standard : (standard : Parameters Float).IsWithin where
  absoluteDecrease := by decide +kernel
  relativeDecrease := by decide +kernel
  sumError := by decide +kernel
  maxIterations := by decide
  lambdaInitial := by decide +kernel
  lambdaFactor := by decide +kernel
  lambdaUpperBound := by decide +kernel
  iterative := ⟨by decide, by decide +kernel, by decide +kernel⟩

/-- **Settings are within their limits, however often they are changed.**  The factor of the damping is above
    one just when it is a number.  A field that is not named in a change keeps its value, and two changes in
    a row are one change, in which the later one goes before. -/
theorem obtained_isWithin {p : Parameters Float} (h : p.Obtained) :
    p.IsWithin ∧ (1 < p.lambdaFactor ↔ Scalar.isNumber p.lambdaFactor = true) ∧
      ∀ changes q, p.withUpdates changes = .ok q →
        (∀ name ∉ changes.map Prod.fst, q.dump.lookup name = p.dump.lookup name) ∧
          ∀ later, q.withUpdates later = p.withUpdates (later ++ changes) := by
  have hwithin : p.IsWithin := h.isWithin isWithin_standard
  refine ⟨hwithin, ?_, fun changes q hq => ⟨fun name hname => lookup_dump_of_withUpdates hq hwithin hname,
    withUpdates_withUpdates hq ((Obtained.withUpdates h hq).isWithin isWithin_standard)⟩⟩
  have hone : (1 : Float) ≤ 1 := by decide +kernel
  rw [Scalar.isNumber, decide_eq_true_iff]
  exact Double.lt_iff_of_not_le hone hwithin.lambdaFactor

/-! The standard settings, with another bound on the iterations, and then with another factor. -/

namespace Shortened

def settings : Parameters Float := { standard with maxIterations := 5 }

theorem settings_of_standard : standard.withUpdates [("max_iterations", .integer 5)] = .ok settings := by
  have hstandard := isWithin_standard.gives_dump
  have hgives : settings.Gives ([("max_iterations", .integer 5)] ++ standard.dump) :=
    { hstandard with maxIterations := field_of_lookup rfl (Setting.toCount_natCast (by decide)) }
  refine withUpdates_eq_ok_iff.mpr ⟨rfl, ?_⟩
  rwa [read_eq_ok_iff, Given.fieldsWithNumbers_append, fieldsWithNumbers_dump]

theorem obtained_isWithin_shortened :
    settings.Obtained ∧ settings.IsWithin ∧ 1 < settings.lambdaFactor ∧
      settings.dump.lookup "lambda_factor" = (standard : Parameters Float).dump.lookup "lambda_factor" ∧
      settings.withUpdates [("lambda_factor", .real 2)] =
        standard.withUpdates [("lambda_factor", .real 2), ("max_iterations", .integer 5)] := by
  have hread : read ([] : List (String × Given Float)) = .ok standard := rfl
  have hstandard : (standard : Parameters Float).Obtained := .read hread
  have hsettings : settings.Obtained := .withUpdates hstandard settings_of_standard
  obtain ⟨-, -, hchange⟩ := obtained_isWithin hstandard
  obtain ⟨hkept, hchanges⟩ := hchange _ settings settings_of_standard
  obtain ⟨hwithin, hfactor, -⟩ := obtained_isWithin hsettings
  exact ⟨hsettings, hwithin, hfactor.mpr (by decide +kernel), hkept "lambda_factor" (by decide), hchanges _⟩

end Shortened

/-- A NaN is taken for the factor, though it is not above one. -/
theorem factor_taken : ∃ p : Parameters Float, read [("lambda_factor", .real (0 / 0))] = .ok p ∧
    ¬ 1 < p.lambdaFactor := by
  have hallows : Setting.Limit.notAtMostOne.Allows (0 / 0 : Float) := by
    show ¬ (0 / 0 : Float) ≤ 1
    decide +kernel
  refine ⟨{ (standard : Parameters Float) with lambdaFactor := 0 / 0 }, ?_, by decide +kernel⟩
  rw [read_eq_ok_iff]
  exact ⟨rfl, rfl, rfl, rfl, rfl, field_of_lookup rfl (Setting.toLimited_real hallows), rfl, rfl, rfl, rfl⟩


end Parameters

end LeastSquares
