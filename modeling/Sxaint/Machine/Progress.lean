/-
# What stays possible

A machine leads from one state to another by allowed steps. What each of these keeps is kept on the
whole way. If, as long as something is left to do, there is a way to a state with less of it, there
is a way to a state with nothing left: the machine cannot get stuck, however it got where it is.
-/

import Mathlib.Data.Nat.Basic
import Mathlib.Logic.Relation
import Sxaint.Machine.Run

namespace Transition

namespace Machine

universe u v

variable {State : Type u} {Label : Type v} {M : Machine State Label}
  {allowed : State → Label → Prop} {s t : State}

variable (M) (allowed) in
/-- One allowed step. -/
def Goes (s t : State) : Prop :=
  ∃ label, allowed s label ∧ M.step label s = some t

variable (M) (allowed) in
/-- Allowed steps one after another. -/
abbrev Leads : State → State → Prop :=
  Relation.ReflTransGen (M.Goes allowed)

theorem leads_step (label : Label) (ok : allowed s label) (taken : M.step label s = some t) :
    M.Leads allowed s t :=
  .single ⟨label, ok, taken⟩

/-- A run goes on where the steps lead. -/
theorem Leads.run (leads : M.Leads allowed s t) {permitted : State → Label → Prop}
    (sound : ∀ state label, allowed state label → permitted state label) {labels : List Label}
    (run : M.RunUnder permitted labels s) : ∃ more, M.RunUnder permitted (labels ++ more) t := by
  induction leads with
  | refl => exact ⟨[], by rwa [List.append_nil]⟩
  | tail _ goes ih =>
      obtain ⟨more, hrun⟩ := ih
      obtain ⟨label, hok, htaken⟩ := goes
      refine ⟨more ++ [label], ?_⟩
      rw [← List.append_assoc]
      exact hrun.snoc (sound _ _ hok) htaken

/-- What holds at first and is kept by every allowed step holds where the steps lead. -/
theorem Leads.invariant (leads : M.Leads allowed s t) (Inv : State → Prop) (start : Inv s)
    (step : ∀ state label next, Inv state → allowed state label → M.step label state = some next →
      Inv next) : Inv t := by
  induction leads with
  | refl => exact start
  | tail _ goes ih =>
      obtain ⟨label, hok, htaken⟩ := goes
      exact step _ label _ ih hok htaken

/-- If there always is a way to less, there is a way to nothing. -/
theorem exists_leads_of_progress {Inv : State → Prop} {measure : State → ℕ}
    (progress : ∀ state, Inv state → 0 < measure state →
      ∃ next, M.Leads allowed state next ∧ Inv next ∧ measure next < measure state)
    (start : Inv s) : ∃ last, M.Leads allowed s last ∧ Inv last ∧ measure last = 0 := by
  induction hmeasure : measure s using Nat.strong_induction_on generalizing s with
  | _ n ih =>
      rcases Nat.eq_zero_or_pos n with rfl | hpositive
      · exact ⟨s, .refl, start, hmeasure⟩
      · obtain ⟨next, hnext, hinv, hless⟩ := progress s start (hmeasure ▸ hpositive)
        obtain ⟨last, hlast, hdone⟩ := ih _ (hmeasure ▸ hless) hinv rfl
        exact ⟨last, hnext.trans hlast, hdone⟩

end Machine

end Transition
