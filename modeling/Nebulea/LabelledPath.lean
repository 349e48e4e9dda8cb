import Mathlib.Logic.Relation
import Mathlib.Tactic.Common

/-!
# Paths of labelled moves

A labelled system is given by the condition under which each label applies and
by the state the label leads to.  A path may further restrict its labels by
what is allowed in the state where they are taken; an invariant then has to be
checked on allowed labels only.
-/

namespace Labelled

variable {Label Store : Type}
variable (guard : Label → Store → Prop) (effect : Label → Store → Store)

/-- One label that applies and is allowed. -/
def Edge (allowed : Label → Store → Prop) (before after : Store) : Prop :=
  ∃ label, allowed label before ∧ guard label before ∧
    after = effect label before

/-- A finite sequence of allowed labels. -/
def Path (allowed : Label → Store → Prop) : Store → Store → Prop :=
  Relation.ReflTransGen (Edge guard effect allowed)

variable {guard effect} {allowed : Label → Store → Prop}
variable {first middle last : Store}

theorem Path.refl (store : Store) : Path guard effect allowed store store :=
  Relation.ReflTransGen.refl

theorem Path.trans (front : Path guard effect allowed first middle)
    (back : Path guard effect allowed middle last) :
    Path guard effect allowed first last :=
  Relation.ReflTransGen.trans front back

/-- Extend a path by one label. -/
theorem Path.move (front : Path guard effect allowed first middle)
    (label : Label) (permitted : allowed label middle)
    (applies : guard label middle) :
    Path guard effect allowed first (effect label middle) :=
  Relation.ReflTransGen.tail front ⟨label, permitted, applies, rfl⟩

/-- A path that needs fewer permissions is a path under more of them. -/
theorem Path.mono {allowed' : Label → Store → Prop}
    (path : Path guard effect allowed first last)
    (weaker : ∀ label store, allowed label store → allowed' label store) :
    Path guard effect allowed' first last := by
  refine Relation.ReflTransGen.mono ?_ _ _ path
  rintro before after ⟨label, permitted, applies, rfl⟩
  exact ⟨label, weaker label before permitted, applies, rfl⟩

/-- What every allowed label keeps, a path keeps. -/
theorem Path.keeps {I : Store → Prop}
    (path : Path guard effect allowed first last)
    (keep : ∀ label store, allowed label store → guard label store →
      I store → I (effect label store))
    (start : I first) : I last := by
  induction path with
  | refl => exact start
  | tail _ edge ih =>
      obtain ⟨label, permitted, applies, rfl⟩ := edge
      exact keep label _ permitted applies ih

end Labelled
