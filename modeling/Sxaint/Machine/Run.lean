/-
# Runs of labelled machines

A machine is an initial state and a partial step function on labels. A run is
recorded with the labels it took, because claims about runs speak both of the
state reached and of the inputs that led there. Restricting every step of a run
by a predicate on the state it leaves and the label it takes is the one way in
which conditions on runs are stated, so an unrestricted run is the case of the
trivial predicate and not a second notion.
-/

import Mathlib.Data.Option.Basic

namespace Transition

universe u v

/-- An initial state and the labelled steps that are possible. A label that is
not enabled in a state has no successor there. -/
structure Machine (State : Type u) (Label : Type v) where
  /-- Where every run starts. -/
  init : State
  /-- The successor under a label, if that label is enabled. -/
  step : Label → State → Option State

namespace Machine

variable {State : Type u} {Label : Type v} {M : Machine State Label}

variable (M) in
/-- A run all of whose steps are allowed, with its labels in order. -/
inductive RunUnder (allowed : State → Label → Prop) : List Label → State → Prop
  | /-- The empty run stays at the initial state. -/
    start : RunUnder allowed [] M.init
  | /-- One more allowed step at the end of a run. -/
    snoc {labels : List Label} {state next : State} {label : Label}
      (prior : RunUnder allowed labels state) (ok : allowed state label)
      (taken : M.step label state = some next) :
      RunUnder allowed (labels ++ [label]) next

variable (M) in
/-- A run with no restriction on its steps. -/
abbrev Run : List Label → State → Prop :=
  M.RunUnder fun _ _ => True

/-- The induction rule for a property of the labels taken and the state
reached. The run itself is available to the step. -/
theorem RunUnder.induct {allowed : State → Label → Prop}
    {motive : List Label → State → Prop} (init : motive [] M.init)
    (step : ∀ labels state label next, M.RunUnder allowed labels state →
      motive labels state → allowed state label →
      M.step label state = some next → motive (labels ++ [label]) next)
    {labels : List Label} {state : State} (run : M.RunUnder allowed labels state) :
    motive labels state := by
  induction run with
  | start => exact init
  | snoc prior ok taken ih => exact step _ _ _ _ prior ih ok taken

/-- A predicate that holds initially and is kept by every allowed step holds in
every state a run reaches. -/
theorem RunUnder.invariant {allowed : State → Label → Prop}
    {motive : State → Prop} (init : motive M.init)
    (step : ∀ state label next, motive state → allowed state label →
      M.step label state = some next → motive next)
    {labels : List Label} {state : State} (run : M.RunUnder allowed labels state) :
    motive state :=
  RunUnder.induct (motive := fun _ s => motive s) init
    (fun _ _ _ _ _ prior ok taken => step _ _ _ prior ok taken) run

/-- Weakening the restriction keeps a run a run. -/
theorem RunUnder.mono {allowed permitted : State → Label → Prop}
    (weaker : ∀ state label, allowed state label → permitted state label)
    {labels : List Label} {state : State} (run : M.RunUnder allowed labels state) :
    M.RunUnder permitted labels state := by
  induction run with
  | start => exact .start
  | snoc _ ok taken ih => exact ih.snoc (weaker _ _ ok) taken

/-- A run whose steps all satisfy a second restriction, as far as it was taken, is a
run under that one. -/
theorem RunUnder.refine {allowed permitted : State → Label → Prop}
    (sound : ∀ labels state label next, M.RunUnder allowed labels state →
      allowed state label → M.step label state = some next → permitted state label)
    {labels : List Label} {state : State} (run : M.RunUnder allowed labels state) :
    M.RunUnder permitted labels state := by
  induction run with
  | start => exact .start
  | snoc prior ok taken ih => exact ih.snoc (sound _ _ _ _ prior ok taken) taken

variable (M) in
/-- A run with these labels leaves a state by a label. -/
def Leaves (labels : List Label) (state : State) (label : Label) : Prop :=
  ∃ before after, labels = before ++ label :: after ∧ M.Run before state

theorem leaves_last {labels : List Label} {state : State} (run : M.Run labels state)
    (label : Label) : M.Leaves (labels ++ [label]) state label :=
  ⟨labels, [], rfl, run⟩

/-- What a run has left it has left however it goes on. -/
theorem Leaves.snoc {labels : List Label} {state : State} {label : Label}
    (leaves : M.Leaves labels state label) (next : Label) :
    M.Leaves (labels ++ [next]) state label := by
  obtain ⟨before, after, rfl, run⟩ := leaves
  exact ⟨before, after ++ [next], by simp, run⟩

variable (M) in
/-- A relation between the two ends of a step, as a restriction on the step. -/
def Keeps (relation : State → Label → State → Prop) (state : State) (label : Label) : Prop :=
  ∀ next, M.step label state = some next → relation state label next

/-- Execute a list of labels from a state, checking each step. -/
def exec (M : Machine State Label) (check : State → Label → Bool) :
    List Label → State → Option State
  | [], state => some state
  | label :: labels, state =>
    if check state label then (M.step label state).bind (exec M check labels) else none

/-- Executing labels after a run extends the run by them. -/
theorem RunUnder.append_exec {allowed : State → Label → Prop} {check : State → Label → Bool}
    (sound : ∀ state label, check state label = true → allowed state label)
    {prior labels : List Label} {state last : State} (run : M.RunUnder allowed prior state)
    (executed : M.exec check labels state = some last) :
    M.RunUnder allowed (prior ++ labels) last := by
  induction labels generalizing prior state with
  | nil =>
      obtain rfl : state = last := by simpa [exec] using executed
      simpa using run
  | cons label labels ih =>
      rw [exec] at executed
      split at executed
      · rename_i hcheck
        obtain ⟨next, taken, rest⟩ := Option.bind_eq_some_iff.mp executed
        simpa using ih (run.snoc (sound _ _ hcheck) taken) rest
      · cases executed

/-- What a check lets pass is executed in the same way without it. -/
theorem exec_of_check {check : State → Label → Bool} {labels : List Label} {state last : State}
    (executed : M.exec check labels state = some last) :
    M.exec (fun _ _ => true) labels state = some last := by
  induction labels generalizing state with
  | nil => exact executed
  | cons label labels ih =>
      rw [exec] at executed
      split at executed
      · obtain ⟨next, taken, rest⟩ := Option.bind_eq_some_iff.mp executed
        rw [exec, if_pos rfl, taken, Option.bind_some]
        exact ih rest
      · cases executed

variable (M) in
/-- Where a list of labels leads, if each is enabled in its turn. -/
def reached (labels : List Label) : State :=
  (M.exec (fun _ _ => true) labels M.init).getD M.init

/-- A checked execution from the initial state is a run to where its labels lead. -/
theorem runUnder_reached {allowed : State → Label → Prop}
    [∀ state label, Decidable (allowed state label)] {labels : List Label}
    (executed : (M.exec (fun state label => decide (allowed state label)) labels
      M.init).isSome = true) :
    M.RunUnder allowed labels (M.reached labels) := by
  obtain ⟨last, hlast⟩ := Option.isSome_iff_exists.mp executed
  rw [reached, exec_of_check hlast]
  simpa using RunUnder.append_exec (fun _ _ => of_decide_eq_true) RunUnder.start hlast

/-- An unchecked execution from the initial state is a run to where its labels lead. -/
theorem run_reached {labels : List Label}
    (executed : (M.exec (fun _ _ => true) labels M.init).isSome = true) :
    M.Run labels (M.reached labels) :=
  runUnder_reached (by simpa using executed)

end Machine

end Transition
