/-
# Selective repeat

A sender numbers the items it is given and keeps each of them until it is acknowledged. A receiver
takes items in any order, keeps those that are ahead, and delivers them in order. Acknowledgements
are cumulative, for everything below a number, or selective, for one number. The network keeps
every message it was ever handed, so that it can bring each of them late, twice or not at all.

The steps are coarse: what is released, repeated or answered at once is a set. Nothing is said of
windows and timers, which restrict when a step is taken and not what it may do.
-/

import Mathlib.Data.List.Infix
import Mathlib.Data.Set.Insert
import Mathlib.Logic.Relation

namespace SelectiveRepeat

universe u

variable {α : Type u}

/-- A sender, a receiver and the messages between them. -/
structure State (α : Type u) where
  /-- The items that were numbered so far. -/
  sent : List α := []
  /-- The numbers that the sender still keeps. -/
  kept : Set ℕ := ∅
  /-- The items that were ever handed to the network, with their numbers. -/
  data : Set (ℕ × α) := ∅
  /-- The items that the receiver has put in order so far. -/
  delivered : List α := []
  /-- The items that the receiver keeps ahead of their turn. -/
  ahead : Set (ℕ × α) := ∅
  /-- The cumulative acknowledgements that were ever handed to the network. -/
  cumulative : Set ℕ := ∅
  /-- The selective ones. -/
  selective : Set ℕ := ∅

namespace State

/-- The receiver has the item of a number. -/
def Received (s : State α) (n : ℕ) : Prop :=
  n < s.delivered.length ∨ ∃ item, (n, item) ∈ s.ahead

/-- An acknowledgement in the network covers a number. -/
def Acknowledged (s : State α) (n : ℕ) : Prop :=
  (∃ bound ∈ s.cumulative, n < bound) ∨ n ∈ s.selective

end State

/-- What the two sides can do. -/
inductive Step : State α → State α → Prop
  | /-- The sender numbers an item. -/
    number (s : State α) (item : α) :
      Step s { s with sent := s.sent ++ [item], kept := insert s.sent.length s.kept }
  | /-- The sender hands items to the network, again or for the first time. -/
    transmit (s : State α) (items : Set (ℕ × α))
      (own : ∀ n item, (n, item) ∈ items → s.sent[n]? = some item) :
      Step s { s with data := s.data ∪ items }
  | /-- An item arrives whose turn has not come. -/
    arrive (s : State α) (n : ℕ) (item : α) (carried : (n, item) ∈ s.data)
      (ahead : s.delivered.length ≤ n) :
      Step s { s with ahead := insert (n, item) s.ahead }
  | /-- The receiver delivers the item whose turn it is. -/
    advance (s : State α) (item : α) (next : (s.delivered.length, item) ∈ s.ahead) :
      Step s
        { s with
          delivered := s.delivered ++ [item]
          ahead := {entry ∈ s.ahead | entry.1 ≠ s.delivered.length} }
  | /-- The receiver hands acknowledgements to the network. -/
    answer (s : State α) (bounds numbers : Set ℕ)
      (inOrder : ∀ bound ∈ bounds, bound ≤ s.delivered.length)
      (received : ∀ n ∈ numbers, s.Received n) :
      Step s { s with cumulative := s.cumulative ∪ bounds, selective := s.selective ∪ numbers }
  | /-- The sender lets go of what is acknowledged. -/
    release (s : State α) (numbers : Set ℕ) (acknowledged : ∀ n ∈ numbers, s.Acknowledged n) :
      Step s { s with kept := s.kept \ numbers }

/-- Steps one after another. -/
abbrev Steps : State α → State α → Prop :=
  Relation.ReflTransGen Step

/-- What holds in every state that the steps lead to. -/
structure State.Safe (s : State α) : Prop where
  /-- What is delivered are the first items, in order. -/
  ordered : s.delivered <+: s.sent
  carried : ∀ n item, (n, item) ∈ s.data → s.sent[n]? = some item
  ahead : ∀ n item, (n, item) ∈ s.ahead → s.sent[n]? = some item ∧ s.delivered.length ≤ n
  cumulative : ∀ bound ∈ s.cumulative, bound ≤ s.delivered.length
  selective : ∀ n ∈ s.selective, s.Received n
  /-- What the sender has let go of, the receiver has. -/
  accounted : ∀ n < s.sent.length, n ∈ s.kept ∨ s.Received n

theorem safe_init : ({} : State α).Safe :=
  ⟨List.prefix_refl _, nofun, nofun, nofun, nofun, nofun⟩

section Step

variable {s s' : State α}

/-- What an acknowledgement covers was received. -/
theorem State.Safe.received_of_acknowledged (safe : s.Safe) {n : ℕ}
    (acknowledged : s.Acknowledged n) : s.Received n := by
  rcases acknowledged with ⟨bound, hbound, hlt⟩ | hselective
  · exact .inl (hlt.trans_le (safe.cumulative bound hbound))
  · exact safe.selective n hselective

/-- The item whose turn it is is the next one of the sender. -/
theorem State.Safe.delivered_concat (safe : s.Safe) {item : α}
    (next : (s.delivered.length, item) ∈ s.ahead) : s.delivered ++ [item] <+: s.sent := by
  obtain ⟨rest, hrest⟩ := safe.ordered
  have hitem := (safe.ahead _ _ next).1
  rw [← hrest, List.getElem?_append_right (le_refl _), Nat.sub_self] at hitem
  cases rest with
  | nil => cases hitem
  | cons first rest =>
      obtain rfl := Option.some.inj hitem
      exact ⟨rest, by rw [List.append_assoc, List.singleton_append, hrest]⟩

/-- What the receiver has, it keeps having. -/
theorem Step.received (step : Step s s') {n : ℕ} (received : s.Received n) : s'.Received n := by
  cases step with
  | number item => exact received
  | transmit items own => exact received
  | arrive m item carried ahead => exact received.imp id fun ⟨x, hx⟩ => ⟨x, .inr hx⟩
  | advance item next =>
      rcases received with hlt | ⟨x, hx⟩
      · left
        rw [List.length_append]
        exact Nat.lt_add_right _ hlt
      · by_cases hturn : n = s.delivered.length
        · left
          rw [List.length_append, hturn]
          exact Nat.lt_succ_self _
        · exact .inr ⟨x, hx, hturn⟩
  | answer bounds numbers inOrder received' => exact received
  | release numbers acknowledged => exact received

theorem safe_step (safe : s.Safe) (step : Step s s') : s'.Safe := by
  cases step with
  | number item =>
      have hgrow {n : ℕ} {x : α} (old : s.sent[n]? = some x) :
          (s.sent ++ [item])[n]? = some x := by
        rw [List.getElem?_append_left (List.getElem?_eq_some_iff.mp old).1]
        exact old
      refine ⟨safe.ordered.trans (List.prefix_append _ _),
        fun n x hx => hgrow (safe.carried n x hx),
        fun n x hx => ⟨hgrow (safe.ahead n x hx).1, (safe.ahead n x hx).2⟩, safe.cumulative,
        safe.selective, fun n hn => ?_⟩
      rw [List.length_append, List.length_singleton, Nat.lt_succ_iff] at hn
      rcases hn.lt_or_eq with hlt | rfl
      · exact (safe.accounted n hlt).imp .inr id
      · exact .inl (.inl rfl)
  | transmit items own =>
      refine ⟨safe.ordered, fun n x hx => ?_, safe.ahead, safe.cumulative, safe.selective,
        safe.accounted⟩
      exact hx.elim (safe.carried n x) (own n x)
  | arrive m item carried ahead =>
      have hstep := Step.arrive s m item carried ahead
      refine ⟨safe.ordered, safe.carried, fun n x hx => ?_, safe.cumulative,
        fun n hn => hstep.received (safe.selective n hn),
        fun n hn => (safe.accounted n hn).imp id hstep.received⟩
      rcases hx with heq | hold
      · cases heq
        exact ⟨safe.carried m item carried, ahead⟩
      · exact safe.ahead n x hold
  | advance item next =>
      have hstep := Step.advance s item next
      refine ⟨safe.delivered_concat next, safe.carried, fun n x hx => ?_, fun bound hb => ?_,
        fun n hn => hstep.received (safe.selective n hn),
        fun n hn => (safe.accounted n hn).imp id hstep.received⟩
      · have hold := safe.ahead n x hx.1
        have hne : n ≠ s.delivered.length := hx.2
        rw [List.length_append, List.length_singleton]
        exact ⟨hold.1, by omega⟩
      · rw [List.length_append]
        exact Nat.le_add_right_of_le (safe.cumulative bound hb)
  | answer bounds numbers inOrder received =>
      exact ⟨safe.ordered, safe.carried, safe.ahead,
        fun bound hb => hb.elim (safe.cumulative bound) (inOrder bound),
        fun n hn => hn.elim (safe.selective n) (received n), safe.accounted⟩
  | release numbers acknowledged =>
      refine ⟨safe.ordered, safe.carried, safe.ahead, safe.cumulative, safe.selective,
        fun n hn => ?_⟩
      by_cases hgone : n ∈ numbers
      · exact .inr (safe.received_of_acknowledged (acknowledged n hgone))
      · exact (safe.accounted n hn).imp (fun hkept => ⟨hkept, hgone⟩) id

end Step

theorem safe_of_steps {s s' : State α} (safe : s.Safe) (steps : Steps s s') : s'.Safe := by
  induction steps with
  | refl => exact safe
  | tail _ step ih => exact safe_step ih step

theorem Steps.received {s s' : State α} (steps : Steps s s') {n : ℕ} (received : s.Received n) :
    s'.Received n := by
  induction steps with
  | refl => exact received
  | tail _ step ih => exact step.received ih

/-- What was delivered stays delivered. -/
theorem Step.delivered {s s' : State α} (step : Step s s') : s.delivered <+: s'.delivered := by
  cases step with
  | advance item next => exact List.prefix_append _ _
  | _ => exact List.prefix_refl _

theorem Steps.delivered {s s' : State α} (steps : Steps s s') : s.delivered <+: s'.delivered := by
  induction steps with
  | refl => exact List.prefix_refl _
  | tail _ step ih => exact ih.trans step.delivered

/-! ## What the network has -/

theorem Step.data {s s' : State α} (step : Step s s') : s.data ⊆ s'.data := by
  cases step with
  | transmit items own => exact fun _ => .inl
  | _ => exact fun _ => id

theorem Step.cumulative {s s' : State α} (step : Step s s') : s.cumulative ⊆ s'.cumulative := by
  cases step with
  | answer bounds numbers inOrder received => exact fun _ => .inl
  | _ => exact fun _ => id

theorem Step.selective {s s' : State α} (step : Step s s') : s.selective ⊆ s'.selective := by
  cases step with
  | answer bounds numbers inOrder received => exact fun _ => .inl
  | _ => exact fun _ => id

theorem Steps.data {s s' : State α} (steps : Steps s s') : s.data ⊆ s'.data := by
  induction steps with
  | refl => exact fun _ => id
  | tail _ step ih => exact fun _ h => step.data (ih h)

theorem Steps.cumulative {s s' : State α} (steps : Steps s s') : s.cumulative ⊆ s'.cumulative := by
  induction steps with
  | refl => exact fun _ => id
  | tail _ step ih => exact fun _ h => step.cumulative (ih h)

theorem Steps.selective {s s' : State α} (steps : Steps s s') : s.selective ⊆ s'.selective := by
  induction steps with
  | refl => exact fun _ => id
  | tail _ step ih => exact fun _ h => step.selective (ih h)

/-! ## The steps of one side -/

/-- Steps that the receiver and its acknowledgements have no part in. -/
structure Sends (s s' : State α) : Prop where
  steps : Steps s s'
  delivered : s'.delivered = s.delivered
  ahead : s'.ahead = s.ahead
  cumulative : s'.cumulative = s.cumulative
  selective : s'.selective = s.selective

/-- Steps that the sender and its data have no part in. -/
structure Receives (s s' : State α) : Prop where
  steps : Steps s s'
  sent : s'.sent = s.sent
  kept : s'.kept = s.kept
  data : s'.data = s.data

section Sides

variable {s s' s'' : State α}

theorem Sends.refl (s : State α) : Sends s s :=
  ⟨.refl, rfl, rfl, rfl, rfl⟩

theorem Sends.trans (first : Sends s s') (second : Sends s' s'') : Sends s s'' :=
  ⟨first.steps.trans second.steps, second.delivered.trans first.delivered,
    second.ahead.trans first.ahead, second.cumulative.trans first.cumulative,
    second.selective.trans first.selective⟩

theorem Receives.refl (s : State α) : Receives s s :=
  ⟨.refl, rfl, rfl, rfl⟩

theorem Receives.trans (first : Receives s s') (second : Receives s' s'') : Receives s s'' :=
  ⟨first.steps.trans second.steps, second.sent.trans first.sent, second.kept.trans first.kept,
    second.data.trans first.data⟩

theorem sends_number (s : State α) (item : α) :
    Sends s { s with sent := s.sent ++ [item], kept := insert s.sent.length s.kept } :=
  ⟨.single (.number s item), rfl, rfl, rfl, rfl⟩

theorem sends_transmit (s : State α) (items : Set (ℕ × α))
    (own : ∀ n item, (n, item) ∈ items → s.sent[n]? = some item) :
    Sends s { s with data := s.data ∪ items } :=
  ⟨.single (.transmit s items own), rfl, rfl, rfl, rfl⟩

theorem sends_release (s : State α) (numbers : Set ℕ)
    (acknowledged : ∀ n ∈ numbers, s.Acknowledged n) :
    Sends s { s with kept := s.kept \ numbers } :=
  ⟨.single (.release s numbers acknowledged), rfl, rfl, rfl, rfl⟩

theorem receives_arrive (s : State α) (n : ℕ) (item : α) (carried : (n, item) ∈ s.data)
    (ahead : s.delivered.length ≤ n) :
    Receives s { s with ahead := insert (n, item) s.ahead } :=
  ⟨.single (.arrive s n item carried ahead), rfl, rfl, rfl⟩

theorem receives_advance (s : State α) (item : α) (next : (s.delivered.length, item) ∈ s.ahead) :
    Receives s
      { s with
        delivered := s.delivered ++ [item]
        ahead := {entry ∈ s.ahead | entry.1 ≠ s.delivered.length} } :=
  ⟨.single (.advance s item next), rfl, rfl, rfl⟩

theorem receives_answer (s : State α) (bounds numbers : Set ℕ)
    (inOrder : ∀ bound ∈ bounds, bound ≤ s.delivered.length)
    (received : ∀ n ∈ numbers, s.Received n) :
    Receives s
      { s with cumulative := s.cumulative ∪ bounds, selective := s.selective ∪ numbers } :=
  ⟨.single (.answer s bounds numbers inOrder received), rfl, rfl, rfl⟩

/-- What the receiver has does not depend on the sender. -/
theorem Sends.received (sends : Sends s s') {n : ℕ} : s'.Received n ↔ s.Received n := by
  rw [State.Received, State.Received, sends.delivered, sends.ahead]

end Sides

/-- Entries in the order of their numbers, that are items of the sender from some number on and
leave none of these out, are the rest of the items. -/
theorem map_eq_drop {entries : List (ℕ × α)} {sent : List α} {base : ℕ}
    (ascending : entries.Pairwise fun a b => a.1 < b.1)
    (own : ∀ entry ∈ entries, base ≤ entry.1 ∧ sent[entry.1]? = some entry.2)
    (covers : ∀ n, base ≤ n → n < sent.length → ∃ entry ∈ entries, entry.1 = n) :
    entries.map Prod.snd = sent.drop base := by
  induction entries generalizing base with
  | nil =>
      have hend : sent.length ≤ base := by
        by_contra hless
        obtain ⟨entry, hentry, -⟩ := covers base (le_refl _) (Nat.lt_of_not_le hless)
        cases hentry
      rw [List.drop_eq_nil_of_le hend]
      rfl
  | cons first rest ih =>
      obtain ⟨hfirst, hrest⟩ := List.pairwise_cons.mp ascending
      obtain ⟨hbase, hitem⟩ := own first List.mem_cons_self
      obtain ⟨hlt, hget⟩ := List.getElem?_eq_some_iff.mp hitem
      -- nothing else can have the first number
      have hnumber : first.1 = base := by
        obtain ⟨entry, hentry, hn⟩ := covers base (le_refl _) (hbase.trans_lt hlt)
        rcases List.mem_cons.mp hentry with rfl | hentry
        · exact hn
        · have hafter := hfirst entry hentry
          omega
      have hlater := @ih (base + 1) hrest
        (fun entry hentry => ⟨by have := hfirst entry hentry; omega,
          (own entry (List.mem_cons_of_mem _ hentry)).2⟩)
        (fun n hn hless => by
          obtain ⟨entry, hentry, hsame⟩ := covers n (by omega) hless
          rcases List.mem_cons.mp hentry with rfl | hentry
          · omega
          · exact ⟨entry, hentry, hsame⟩)
      subst hnumber
      rw [List.map_cons, hlater, List.drop_eq_getElem_cons hlt, hget]

end SelectiveRepeat
