/-
  LeastSquares/Proofs/Paths.lean
  ==============================
  **Paths through chosen variables.**

  Two variables are adjacent when a factor is about both.  A path goes through variables that are
  chosen; to choose one more is to allow detours over it, which is all that eliminating a variable
  adds to the neighbours of the others.
-/
import LeastSquares.Linear.Graph

namespace LeastSquares

/-- A path from one variable to another, on which every variable in between is chosen. -/
inductive Through (adjacent : Key → Key → Prop) (chosen : Key → Prop) : Key → Key → Prop
  | edge {a b : Key} : adjacent a b → Through adjacent chosen a b
  | step {a b c : Key} : adjacent a b → chosen b → Through adjacent chosen b c →
      Through adjacent chosen a c

namespace Through

variable {adjacent : Key → Key → Prop} {chosen wider : Key → Prop} {a b c : Key}

theorem mono (h : Through adjacent chosen a b) (hchosen : ∀ key, chosen key → wider key) :
    Through adjacent wider a b := by
  induction h with
  | edge hab => exact .edge hab
  | step hab hb _ ih => exact .step hab (hchosen _ hb) ih

theorem trans (hab : Through adjacent chosen a b) (hb : chosen b)
    (hbc : Through adjacent chosen b c) : Through adjacent chosen a c := by
  induction hab with
  | edge hab => exact .step hab hb hbc
  | step hab hchosen _ ih => exact .step hab hchosen (ih hb hbc)

theorem symm (hsymm : ∀ a b, adjacent a b → adjacent b a) (h : Through adjacent chosen a b) :
    Through adjacent chosen b a := by
  induction h with
  | edge hab => exact .edge (hsymm _ _ hab)
  | step hab hb _ ih => exact trans ih hb (.edge (hsymm _ _ hab))

/-- **One more variable to go through**: a path avoids it, or leads to it and on from it. -/
theorem insert_iff (pivot : Key) :
    Through adjacent (fun key => chosen key ∨ key = pivot) a b ↔
      Through adjacent chosen a b ∨
        Through adjacent chosen a pivot ∧ Through adjacent chosen pivot b := by
  constructor
  · intro h
    induction h with
    | edge hab => exact .inl (.edge hab)
    | step hab hb _ ih =>
      rcases hb with hb | rfl
      · exact ih.imp (.step hab hb) fun ⟨hto, hfrom⟩ => ⟨.step hab hb hto, hfrom⟩
      · exact .inr ⟨.edge hab, ih.elim id And.right⟩
  · rintro (h | ⟨hto, hfrom⟩)
    · exact h.mono fun _ => .inl
    · exact (hto.mono fun _ => .inl).trans (.inr rfl) (hfrom.mono fun _ => .inl)

end Through

namespace LinearGraph

/-- Two different variables that a factor is about. -/
def Adjacent {α : Type} (g : LinearGraph α) (a b : Key) : Prop :=
  a ≠ b ∧ ∃ f ∈ g.factors, a ∈ f.keys ∧ b ∈ f.keys

theorem Adjacent.symm {α : Type} {g : LinearGraph α} {a b : Key} (h : g.Adjacent a b) :
    g.Adjacent b a :=
  ⟨h.1.symm, h.2.imp fun _ ⟨hf, ha, hb⟩ => ⟨hf, hb, ha⟩⟩

end LinearGraph

end LeastSquares
