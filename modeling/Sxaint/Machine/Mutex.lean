/-
# Mutual exclusion by an owner

A mutex records the thread that holds it, and threads have sections of their code in which
they hold it. The invariant is that a thread inside such a section is the owner. There are
three kinds of steps, into a section, out of one, and one for all other steps; each has a
rule that asks what the step does to the set of threads inside.
-/

import Mathlib.Data.Option.Basic

namespace Mutex

universe u

variable {Thread : Type u} {inside after : Thread → Prop} {owner : Option Thread}
  {thread : Thread}

/-- A thread inside a section is the owner. -/
def Exclusive (owner : Option Thread) (inside : Thread → Prop) : Prop :=
  ∀ thread, inside thread → owner = some thread

/-- While nobody owns the mutex no thread is inside. -/
theorem Exclusive.not_inside (exclusive : Exclusive none inside) (thread : Thread) :
    ¬ inside thread := by
  intro hinside
  cases exclusive thread hinside

/-- The owner is the only thread that can be inside. -/
theorem Exclusive.eq_owner (exclusive : Exclusive owner inside) {first second : Thread}
    (hfirst : inside first) (hsecond : inside second) : first = second :=
  Option.some.inj ((exclusive first hfirst).symm.trans (exclusive second hsecond))

/-- A thread locks the free mutex and enters its section. -/
theorem Exclusive.enter (exclusive : Exclusive none inside)
    (entered : ∀ other, after other → other = thread ∨ inside other) :
    Exclusive (some thread) after := by
  intro other hafter
  rcases entered other hafter with rfl | hinside
  · rfl
  · exact (exclusive.not_inside other hinside).elim

/-- The thread inside leaves its section and unlocks the mutex. -/
theorem Exclusive.leave (exclusive : Exclusive owner inside) (held : inside thread)
    (left : ∀ other, after other → other ≠ thread ∧ inside other) :
    Exclusive none after := by
  intro other hafter
  obtain ⟨hne, hinside⟩ := left other hafter
  exact (hne (exclusive.eq_owner hinside held)).elim

/-- No thread enters a section. -/
theorem Exclusive.stay (exclusive : Exclusive owner inside)
    (stayed : ∀ other, after other → inside other) : Exclusive owner after :=
  fun other hafter => exclusive other (stayed other hafter)

/-! ## A step of one thread -/

/-- After a step of one thread that thread is inside if it has come to a section, and the others as
before. -/
def Moves (thread : Thread) (critical : Prop) (inside after : Thread → Prop) : Prop :=
  ∀ other, after other → other = thread ∧ critical ∨ other ≠ thread ∧ inside other

variable {critical : Prop}

theorem Moves.enter (moves : Moves thread critical inside after)
    (exclusive : Exclusive none inside) : Exclusive (some thread) after :=
  exclusive.enter fun other hafter => (moves other hafter).imp And.left And.right

theorem Moves.leave (moves : Moves thread critical inside after)
    (exclusive : Exclusive owner inside) (held : inside thread) (left : ¬ critical) :
    Exclusive none after := by
  apply exclusive.leave held
  intro other hafter
  rcases moves other hafter with ⟨-, hcritical⟩ | houtside
  · exact (left hcritical).elim
  · exact houtside

theorem Moves.stay (moves : Moves thread critical inside after)
    (exclusive : Exclusive owner inside) (same : critical → inside thread) :
    Exclusive owner after := by
  apply exclusive.stay
  intro other hafter
  rcases moves other hafter with ⟨rfl, hcritical⟩ | ⟨-, hold⟩
  · exact same hcritical
  · exact hold

end Mutex
