/-
# Purged runs

Two runs of one machine, the second of which lacks some labels of the first. Labels are
dropped or replaced by others that lead to the same state. Whether an observer can tell the
two runs apart at any point is decided step by step: by what the dropped labels do to what
the observer sees.
-/

import Mathlib.Data.List.Induction
import Sxaint.Machine.Run

namespace Transition

universe u v w

namespace Machine

variable {State : Type u} {Label : Type v} {View : Type w} {M : Machine State Label}
  {allowed permitted : State → Label → Prop} {labels prior later : List Label} {s t : State}

theorem runUnder_nil_iff : M.RunUnder allowed [] s ↔ s = M.init := by
  constructor
  · intro run
    generalize hlabels : ([] : List Label) = labels at run
    cases run with
    | start => rfl
    | snoc _ _ _ =>
        exact (List.append_ne_nil_of_right_ne_nil _ (List.cons_ne_nil _ _) hlabels.symm).elim
  · rintro rfl
    exact .start

/-- The last step of a run. -/
theorem runUnder_concat_iff {label : Label} :
    M.RunUnder allowed (labels ++ [label]) t ↔
      ∃ s, M.RunUnder allowed labels s ∧ allowed s label ∧ M.step label s = some t := by
  constructor
  · intro run
    generalize hlabels : labels ++ [label] = all at run
    cases run with
    | start => exact (List.append_ne_nil_of_right_ne_nil _ (List.cons_ne_nil _ _) hlabels).elim
    | snoc prior ok taken =>
        obtain ⟨rfl, hlast⟩ := List.append_inj' hlabels rfl
        obtain rfl := (List.cons.inj hlast).1
        exact ⟨_, prior, ok, taken⟩
  · rintro ⟨s, prior, ok, taken⟩
    exact prior.snoc ok taken

/-- The labels of a run determine where it leads. -/
theorem RunUnder.unique (first : M.RunUnder allowed labels s)
    (second : M.RunUnder permitted labels t) : s = t := by
  induction first generalizing t with
  | start => exact (runUnder_nil_iff.mp second).symm
  | snoc _ _ taken ih =>
      obtain ⟨u, hprior, -, htaken⟩ := runUnder_concat_iff.mp second
      obtain rfl := ih hprior
      exact Option.some.inj (taken.symm.trans htaken)

/-- What a step that a run has taken brought about and no step undoes still holds in the end. -/
theorem Leaves.lasting {Inv : State → Prop} {label : Label} (leaves : M.Leaves labels s label)
    (made : ∀ next, M.step label s = some next → Inv next)
    (kept : ∀ state label next, Inv state → M.step label state = some next → Inv next)
    (run : M.RunUnder allowed labels t) : Inv t := by
  obtain ⟨before, after, rfl, hbefore⟩ := leaves
  induction after using List.reverseRecOn generalizing t with
  | nil =>
      obtain ⟨u, hprior, -, htaken⟩ := runUnder_concat_iff.mp run
      obtain rfl := hprior.unique hbefore
      exact made t htaken
  | append_singleton after last ih =>
      rw [← List.cons_append, ← List.append_assoc] at run
      obtain ⟨u, hprior, -, htaken⟩ := runUnder_concat_iff.mp run
      exact kept u last t (ih hprior) htaken

/-- A run passes through where the first of its labels lead, and a predicate that no step
establishes holds there if it holds in the end. -/
theorem RunUnder.split {Inv : State → Prop}
    (back : ∀ state label next, M.step label state = some next → Inv next → Inv state)
    (run : M.RunUnder allowed (prior ++ later) t) :
    ∃ s, M.RunUnder allowed prior s ∧ (Inv t → Inv s) := by
  induction later using List.reverseRecOn generalizing t with
  | nil =>
      rw [List.append_nil] at run
      exact ⟨t, run, id⟩
  | append_singleton later label ih =>
      rw [← List.append_assoc] at run
      obtain ⟨u, hprior, -, htaken⟩ := runUnder_concat_iff.mp run
      obtain ⟨s, hs, hinv⟩ := ih hprior
      exact ⟨s, hs, fun h => hinv (back _ _ _ htaken h)⟩

/-- A run is one under another restriction if each of its steps meets that one, on its way to
where a predicate holds that no step establishes. -/
theorem RunUnder.restrict {Inv : State → Prop}
    (back : ∀ state label next, M.step label state = some next → Inv next → Inv state)
    (sound : ∀ state label next, Inv next → M.step label state = some next →
      allowed state label → permitted state label)
    (run : M.RunUnder allowed labels s) (inv : Inv s) : M.RunUnder permitted labels s := by
  induction run with
  | start => exact .start
  | snoc _ ok taken ih =>
      exact (ih (back _ _ _ taken inv)).snoc (sound _ _ _ inv taken ok) taken

variable (M) in
/-- At every point of a run, the run without the dropped labels shows the same. -/
def Unaffected (keep : Label → Option Label) (view : State → View) (labels : List Label) : Prop :=
  ∀ prior later s, prior ++ later = labels → M.Run prior s →
    ∃ t, M.Run (prior.filterMap keep) t ∧ view t = view s

variable (M) in
/-- A step with a dropped label shows nothing. -/
def Silent (keep : Label → Option Label) (view : State → View) (s : State) (label : Label) :
    Prop :=
  keep label = none → ∀ t, M.step label s = some t → view t = view s

section Purge

variable {keep : Label → Option Label} {view : State → View} {Inv : State → Prop}

/-- A run whose dropped labels show nothing leads to the same state without them. -/
theorem purge_run
    (back : ∀ state label next, M.step label state = some next → Inv next → Inv state)
    (same : ∀ label kept state, keep label = some kept → M.step kept state = M.step label state)
    (hidden : ∀ state label next, Inv next → keep label = none → M.step label state = some next →
      view next = view state → next = state)
    (run : M.RunUnder (M.Silent keep view) labels s) (inv : Inv s) :
    M.Run (labels.filterMap keep) s := by
  induction run with
  | start => exact .start
  | @snoc labels state next label _ ok taken ih =>
      have hprior := ih (back _ _ _ taken inv)
      rw [List.filterMap_append]
      cases hkeep : keep label with
      | none =>
          rw [List.filterMap_cons_none hkeep, List.filterMap_nil, List.append_nil,
            hidden _ _ _ inv hkeep taken (ok hkeep _ taken)]
          exact hprior
      | some kept =>
          rw [List.filterMap_cons_some hkeep, List.filterMap_nil]
          exact hprior.snoc trivial ((same _ _ _ hkeep).trans taken)

/-- The dropped labels do not affect what a run shows exactly if none of them shows. -/
theorem unaffected_iff
    (back : ∀ state label next, M.step label state = some next → Inv next → Inv state)
    (same : ∀ label kept state, keep label = some kept → M.step kept state = M.step label state)
    (hidden : ∀ state label next, Inv next → keep label = none → M.step label state = some next →
      view next = view state → next = state)
    (run : M.Run labels s) (inv : Inv s) :
    M.Unaffected keep view labels ↔ M.RunUnder (M.Silent keep view) labels s := by
  constructor
  · intro unaffected
    induction run with
    | start => exact .start
    | @snoc labels state next label hrun _ taken ih =>
        have hstate := ih (back _ _ _ taken inv) fun prior later s heq hs =>
          unaffected prior (later ++ [label]) s (by rw [← List.append_assoc, heq]) hs
        refine hstate.snoc ?_ taken
        intro hkeep t htaken
        obtain rfl := Option.some.inj (taken.symm.trans htaken)
        obtain ⟨u, hu, hview⟩ := unaffected labels [label] state rfl hrun
        obtain ⟨v, hv, hview'⟩ := unaffected (labels ++ [label]) [] next (List.append_nil _)
          (hrun.snoc trivial taken)
        rw [List.filterMap_append, List.filterMap_cons_none hkeep, List.filterMap_nil,
          List.append_nil] at hv
        rw [← hview, ← hview', hu.unique hv]
  · rintro silent prior later t rfl hrun
    obtain ⟨u, hu, hinv⟩ := silent.split back
    obtain rfl := hrun.unique hu
    exact ⟨t, purge_run back same hidden hu (hinv inv), rfl⟩

end Purge

end Machine

end Transition
