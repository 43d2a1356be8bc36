/-
# Two control blocks and the network between them

Two control blocks of one conversation, each with its application and its clock, over a network of
datagrams. A datagram that one side has sent may arrive at the other late, more than once, out of
order or never; no other one arrives. What the applications gave and took is recorded, message by
message.
-/

import Mathlib.Logic.Function.Basic
import Sxaint.Ikcp.Datagrams

namespace Sxaint.Ikcp

open Transition

/-- One of two sides. -/
inductive Side
  | left
  | right
  deriving DecidableEq, Repr

/-- The other one. -/
def Side.other : Side → Side
  | .left => .right
  | .right => .left

@[simp]
theorem Side.other_other (side : Side) : side.other.other = side := by
  cases side <;> rfl

theorem Side.other_ne (side : Side) : side.other ≠ side := by
  cases side <;> nofun

theorem Side.eq_or_eq_other (one side : Side) : side = one ∨ side = one.other := by
  cases one <;> cases side <;> first | exact .inl rfl | exact .inr rfl

/-- Two control blocks and their applications. -/
structure Pair where
  kcps : Side → Ikcpcb
  /-- The bytes that `ikcp_send` accepted so far, call by call. -/
  given : Side → List (List UInt8) := fun _ => []
  /-- The bytes that `ikcp_recv` returned so far, call by call. -/
  taken : Side → List (List UInt8) := fun _ => []

namespace Pair

/-- What a call of `ikcp_send` accepts, if it does not fail. -/
def accepted (kcp : Ikcpcb) : Call → List (List UInt8)
  | .send buffer =>
    let code := (kcp.send buffer).1
    if 0 ≤ code then [buffer.take code.toNat] else []
  | .recv _ | .input _ | .update _ | .flush => []

/-- What a call of `ikcp_recv` returns, if it does not fail and does not only look. -/
def returned (kcp : Ikcpcb) : Call → List (List UInt8)
  | .recv len => if 0 ≤ len ∧ 0 ≤ (kcp.recv len).1 then [(kcp.recv len).2.1] else []
  | .send _ | .input _ | .update _ | .flush => []

/-- The datagrams that can arrive are those that the other side has sent. -/
def possible (s : Pair) (side : Side) : Call → Prop
  | .input data => data ∈ (s.kcps side.other).outputs
  | .send _ | .recv _ | .update _ | .flush => True

instance (s : Pair) (side : Side) (call : Call) : Decidable (s.possible side call) :=
  match call with
  | .input data => inferInstanceAs (Decidable (data ∈ (s.kcps side.other).outputs))
  | .send _ | .recv _ | .update _ | .flush => inferInstanceAs (Decidable True)

/-- One call. -/
def step (event : Side × Call) (s : Pair) : Option Pair :=
  let (side, call) := event
  if s.possible side call then
    let kcp := s.kcps side
    some
      { kcps := Function.update s.kcps side (kcp.apply call)
        given := Function.update s.given side (s.given side ++ accepted kcp call)
        taken := Function.update s.taken side (s.taken side ++ returned kcp call) }
  else none

/-- The machine of two control blocks. -/
def machine (kcps : Side → Ikcpcb) : Machine Pair (Side × Call) where
  init := { kcps := kcps }
  step := step

/-- A step is a possible call on one side, and nothing on the other one. -/
theorem step_cases {s next : Pair} {side : Side} {call : Call}
    (taken : step (side, call) s = some next) :
    s.possible side call ∧ next.kcps side = (s.kcps side).apply call ∧
      next.kcps side.other = s.kcps side.other ∧
      next.given side = s.given side ++ accepted (s.kcps side) call ∧
      next.given side.other = s.given side.other ∧
      next.taken side = s.taken side ++ returned (s.kcps side) call ∧
      next.taken side.other = s.taken side.other := by
  rw [step] at taken
  split at taken
  · rename_i hpossible
    obtain rfl := Option.some.inj taken
    have hne := side.other_ne
    exact ⟨hpossible, Function.update_self _ _ _, Function.update_of_ne hne _ _,
      Function.update_self _ _ _, Function.update_of_ne hne _ _,
      Function.update_self _ _ _, Function.update_of_ne hne _ _⟩
  · cases taken

/-- What holds of a control block at the start, and is kept by each call, holds after a run. -/
theorem of_run {motive : Ikcpcb → Prop} {kcps : Side → Ikcpcb} {events : List (Side × Call)}
    {s : Pair} (run : (machine kcps).Run events s) (side : Side) (start : motive (kcps side))
    (apply : ∀ kcp call, motive kcp → motive (kcp.apply call)) : motive (s.kcps side) := by
  refine run.induct (motive := fun _ s => motive (s.kcps side)) start ?_
  rintro events s ⟨one, call⟩ next - ih - taken
  obtain ⟨-, hone, hother, -⟩ := step_cases taken
  rcases one.eq_or_eq_other side with rfl | rfl
  · rw [hone]
    exact apply _ call ih
  · rw [hother]
    exact ih

/-- One side makes some calls, in which it gives and takes some bytes. -/
structure Calls (kcps : Side → Ikcpcb) (side : Side) (s next : Pair) (given taken : List UInt8) :
    Prop where
  run : ∀ events, (machine kcps).Run events s → ∃ more, (machine kcps).Run (events ++ more) next
  given : (next.given side).flatten = (s.given side).flatten ++ given
  taken : (next.taken side).flatten = (s.taken side).flatten ++ taken
  kcps_other : next.kcps side.other = s.kcps side.other
  given_other : next.given side.other = s.given side.other
  taken_other : next.taken side.other = s.taken side.other

section Calls

variable {kcps : Side → Ikcpcb} {side : Side} {s next last : Pair}
  {given taken given' taken' : List UInt8}

theorem Calls.refl : Calls kcps side s s [] [] :=
  ⟨fun _ run => ⟨[], by rwa [List.append_nil]⟩, (List.append_nil _).symm, (List.append_nil _).symm,
    rfl, rfl, rfl⟩

theorem Calls.trans (first : Calls kcps side s next given taken)
    (second : Calls kcps side next last given' taken') :
    Calls kcps side s last (given ++ given') (taken ++ taken') := by
  refine ⟨fun events run => ?_, ?_, ?_, second.kcps_other.trans first.kcps_other,
    second.given_other.trans first.given_other, second.taken_other.trans first.taken_other⟩
  · obtain ⟨more, hnext⟩ := first.run events run
    obtain ⟨more', hlast⟩ := second.run _ hnext
    exact ⟨more ++ more', by rwa [← List.append_assoc]⟩
  · rw [second.given, first.given, List.append_assoc]
  · rw [second.taken, first.taken, List.append_assoc]

/-- A call that is possible can be made. -/
theorem calls_call (kcps : Side → Ikcpcb) (call : Call) (possible : s.possible side call) :
    ∃ next, next.kcps side = (s.kcps side).apply call ∧
      Calls kcps side s next (accepted (s.kcps side) call).flatten
        (returned (s.kcps side) call).flatten := by
  obtain ⟨next, hnext⟩ : ∃ next, step (side, call) s = some next := by
    rw [step]
    dsimp only
    rw [if_pos possible]
    exact ⟨_, rfl⟩
  obtain ⟨-, hone, hother, hgiven, hgiven', htaken, htaken'⟩ := step_cases hnext
  have hmachine : (machine kcps).step (side, call) s = some next := hnext
  refine ⟨next, hone, fun events run => ⟨_, run.snoc trivial hmachine⟩, ?_, ?_, hother, hgiven',
    htaken'⟩
  · rw [hgiven, List.flatten_append]
  · rw [htaken, List.flatten_append]

end Calls

/-- The left side gives three bytes, which the right side takes and acknowledges. -/
def exchange : List (Side × Call) :=
  [(.left, .update 0), (.left, .send [1, 2, 3]), (.left, .flush),
    (.right, .input
      [68, 51, 34, 17, 81, 0, 0, 16, 0, 0, 0, 0, 0, 0, 0, 0, 0, 0, 0, 0, 3, 0, 0, 0, 1, 2, 3]),
    (.right, .update 5), (.right, .recv 100),
    (.left, .input
      [68, 51, 34, 17, 82, 0, 255, 15, 0, 0, 0, 0, 0, 0, 0, 0, 1, 0, 0, 0, 0, 0, 0, 0])]

end Pair

end Sxaint.Ikcp
