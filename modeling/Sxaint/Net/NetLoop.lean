/-
# The network thread of a listening transport

The loop of the network thread over its socket and its four streams. In each round it reads
the datagrams that have arrived and gives each to the stream its conversation number names,
updates the streams with the time at which the round began, and takes frames off what they
deliver. The first datagram fixes the address that answers go to.

The protocol that runs each stream is a parameter: a state and the functions the transport
calls on it. Other threads send on a stream between any two steps; a call of `sendChunk`
holds the mutex of its stream from its first piece to the flush, so for the stream it is
one step.
-/

import Mathlib.Data.List.FinRange
import Mathlib.Logic.Function.Basic
import Sxaint.Net.Protocol
import Sxaint.Net.Transport

namespace Sxaint.Net

open Transition

/-- The functions of a reliable stream over datagrams. -/
structure Kcp (κ : Type) where
  input : List UInt8 → κ → κ
  flush : κ → κ
  update : UInt32 → κ → κ
  /-- The bytes it delivers; none if it has nothing to deliver. -/
  recv : κ → List UInt8 × κ
  /-- Whether it accepts the bytes. -/
  send : List UInt8 → κ → Bool × κ

/-- The number of streams. -/
abbrev kNumStreams : ℕ := 4

namespace Kcp

variable {κ : Type}

/-- The loop of `sendChunk` over the rest of a frame. -/
def sendLoop (K : Kcp κ) : ℕ → List UInt8 → κ → κ
  | 0, _, kcp => kcp
  | rounds + 1, rest, kcp =>
    if rest = [] then kcp
    else
      match K.send (rest.take maxSendSize.toNat) kcp with
      | (true, kcp) => K.sendLoop rounds (rest.drop maxSendSize.toNat) kcp
      | (false, kcp) => kcp

/-- What `sendChunk` does to its stream. -/
def sendChunk (K : Kcp κ) (rawPayload : List UInt8) (kcp : κ) : κ :=
  let totalSize := (toInt (frame rawPayload).length).toNat
  K.flush (K.sendLoop totalSize ((frame rawPayload).take totalSize) kcp)

/-- What sending keeps, the loop keeps. -/
theorem sendLoop_induct {K : Kcp κ} {motive : κ → Prop} {kcp : κ} (start : motive kcp)
    (send : ∀ data kcp, motive kcp → motive (K.send data kcp).2) (rounds : ℕ) (rest : List UInt8) :
    motive (K.sendLoop rounds rest kcp) := by
  induction rounds generalizing rest kcp with
  | zero => exact start
  | succ rounds ih =>
      have hsent := send (rest.take maxSendSize.toNat) kcp start
      rw [sendLoop]
      split
      · exact start
      generalize K.send (rest.take maxSendSize.toNat) kcp = result at hsent
      obtain ⟨accepted, after⟩ := result
      cases accepted with
      | true => exact ih hsent _
      | false => exact hsent

theorem sendChunk_induct {K : Kcp κ} {motive : κ → Prop} {kcp : κ} (start : motive kcp)
    (send : ∀ data kcp, motive kcp → motive (K.send data kcp).2)
    (flush : ∀ kcp, motive kcp → motive (K.flush kcp)) (rawPayload : List UInt8) :
    motive (K.sendChunk rawPayload kcp) :=
  flush _ (sendLoop_induct start send _ _)

end Kcp

/-- The stream that a datagram names. -/
def streamOf (data : List UInt8) : Fin kNumStreams :=
  Fin.ofNat _ (readU32 data 0).toNat

/-- The stream of a frame. -/
def streamFor (streamId : UInt32) : Fin kNumStreams :=
  ⟨streamId.toNat % kNumStreams, Nat.mod_lt _ (Nat.succ_pos 3)⟩

/-- Where the network thread is. -/
inductive LoopPc
  | /-- Before the time of the round is taken. -/
    begin
  | /-- In the loop over the datagrams. -/
    burst (now : UInt32)
  | /-- Before the remaining streams are updated. -/
    update (now : UInt32) (rest : List (Fin kNumStreams))
  | /-- Before the next read from the first of the remaining streams. -/
    recv (rest : List (Fin kNumStreams))
  | /-- In the loop over the buffer of a stream. -/
    parse (stream : Fin kNumStreams) (rest : List (Fin kNumStreams))
  deriving DecidableEq, Repr

/-- A transport, with addresses of any type. -/
structure Listening (α κ : Type) where
  remoteAddr : Option α := none
  addressLocked : Bool := false
  kcps : Fin kNumStreams → κ
  streamBuffer : Fin kNumStreams → List UInt8 := fun _ => []
  pc : LoopPc := .begin
  /-- The payloads passed to `on_received_` so far. -/
  received : List (List UInt8) := []
  fault : Bool := false

/-- A step of the network thread or of a call of `sendChunk`. -/
inductive NetEvent (α : Type)
  | /-- A round begins. -/
    clock (now : UInt32)
  | /-- A datagram is read, with its source, or there is none. -/
    recvfrom (datagram : Option (α × List UInt8))
  | /-- The network thread takes its next step, outside the loop over the datagrams. -/
    advance
  | sendChunk (rawPayload : List UInt8) (streamId : UInt32)
  deriving DecidableEq, Repr

/-- A step of the network thread, and not a call of another thread. -/
def NetEvent.isOwn {α : Type} : NetEvent α → Bool
  | .sendChunk _ _ => false
  | _ => true

namespace Listening

variable {α κ : Type}

/-- A stream is changed. -/
def setKcp (s : Listening α κ) (stream : Fin kNumStreams) (kcp : κ) : Listening α κ :=
  { s with kcps := Function.update s.kcps stream kcp }

/-- A datagram of more than four bytes. -/
def accept (K : Kcp κ) (source : α) (data : List UInt8) (s : Listening α κ) : Listening α κ :=
  let stream := streamOf data
  let located :=
    if s.addressLocked = false ∧ s.remoteAddr.isNone then
      { s with remoteAddr := some source, addressLocked := true }
    else s
  located.setKcp stream (K.flush (K.input data (s.kcps stream)))

/-- One step of the network thread outside the loop over the datagrams. -/
def advance (K : Kcp κ) (s : Listening α κ) : Option (Listening α κ) :=
  match s.pc with
  | .begin => none
  | .burst _ => none
  | .update _ [] => some { s with pc := .recv (List.finRange kNumStreams) }
  | .update now (stream :: rest) =>
    some { s.setKcp stream (K.update now (s.kcps stream)) with pc := .update now rest }
  | .recv [] => some { s with pc := .begin }
  | .recv (stream :: rest) =>
    let (bytes, kcp) := K.recv (s.kcps stream)
    let read := s.setKcp stream kcp
    if bytes = [] then some { read with pc := .recv rest }
    else
      some
        { read with
          streamBuffer := Function.update s.streamBuffer stream (s.streamBuffer stream ++ bytes)
          pc := .parse stream rest }
  | .parse stream rest =>
    match parse (s.streamBuffer stream) with
    | .more => some { s with pc := .recv (stream :: rest) }
    | .frame finalData left =>
      some
        { s with
          streamBuffer := Function.update s.streamBuffer stream left
          received := s.received ++ [finalData] }
    | .overrun => some { s with fault := true }

/-- One step. -/
def step (K : Kcp κ) (event : NetEvent α) (s : Listening α κ) : Option (Listening α κ) :=
  if s.fault then none
  else
    match event with
    | .clock now => if s.pc = .begin then some { s with pc := .burst now } else none
    | .recvfrom datagram =>
      match s.pc with
      | .burst now =>
        match datagram with
        | none => some { s with pc := .update now (List.finRange kNumStreams) }
        | some (source, data) =>
          if 4 < data.length then some (s.accept K source data)
          else some { s with pc := .update now (List.finRange kNumStreams) }
      | _ => none
    | .advance => s.advance K
    | .sendChunk rawPayload streamId =>
      let stream := Fin.ofNat kNumStreams streamId.toNat
      some (s.setKcp stream (K.sendChunk rawPayload (s.kcps stream)))

/-! ## What a step can do -/

section Steps

variable {K : Kcp κ} {s next : Listening α κ} {event : NetEvent α}

/-- What the network thread can do outside the loop over the datagrams. -/
inductive AdvancesTo (K : Kcp κ) (s : Listening α κ) : Listening α κ → Prop
  | allUpdated {now : UInt32} (pc : s.pc = .update now []) :
      AdvancesTo K s { s with pc := .recv (List.finRange kNumStreams) }
  | update {now : UInt32} {stream : Fin kNumStreams} {rest : List (Fin kNumStreams)}
      (pc : s.pc = .update now (stream :: rest)) :
      AdvancesTo K s { s.setKcp stream (K.update now (s.kcps stream)) with pc := .update now rest }
  | allRead (pc : s.pc = .recv []) : AdvancesTo K s { s with pc := .begin }
  | nothing {stream : Fin kNumStreams} {rest : List (Fin kNumStreams)}
      (pc : s.pc = .recv (stream :: rest)) (none : (K.recv (s.kcps stream)).1 = []) :
      AdvancesTo K s { s.setKcp stream (K.recv (s.kcps stream)).2 with pc := .recv rest }
  | bytes {stream : Fin kNumStreams} {rest : List (Fin kNumStreams)}
      (pc : s.pc = .recv (stream :: rest)) (some : (K.recv (s.kcps stream)).1 ≠ []) :
      AdvancesTo K s
        { s.setKcp stream (K.recv (s.kcps stream)).2 with
          streamBuffer := Function.update s.streamBuffer stream
            (s.streamBuffer stream ++ (K.recv (s.kcps stream)).1)
          pc := .parse stream rest }
  | more {stream : Fin kNumStreams} {rest : List (Fin kNumStreams)} (pc : s.pc = .parse stream rest)
      (short : parse (s.streamBuffer stream) = .more) :
      AdvancesTo K s { s with pc := .recv (stream :: rest) }
  | frame {stream : Fin kNumStreams} {rest : List (Fin kNumStreams)} {finalData left : List UInt8}
      (pc : s.pc = .parse stream rest)
      (whole : parse (s.streamBuffer stream) = .frame finalData left) :
      AdvancesTo K s
        { s with
          streamBuffer := Function.update s.streamBuffer stream left
          received := s.received ++ [finalData] }
  | overrun {stream : Fin kNumStreams} {rest : List (Fin kNumStreams)}
      (pc : s.pc = .parse stream rest) (beyond : parse (s.streamBuffer stream) = .overrun) :
      AdvancesTo K s { s with fault := true }

theorem advance_iff : s.advance K = some next ↔ AdvancesTo K s next := by
  constructor
  · intro taken
    unfold advance at taken
    split at taken
    · cases taken
    · cases taken
    · rename_i hpc
      cases taken
      exact .allUpdated hpc
    · rename_i hpc
      cases taken
      exact .update hpc
    · rename_i hpc
      cases taken
      exact .allRead hpc
    · rename_i hpc
      dsimp only at taken
      split at taken
      · rename_i hnone
        cases taken
        exact .nothing hpc hnone
      · rename_i hsome
        cases taken
        exact .bytes hpc hsome
    · rename_i hpc
      split at taken
      · rename_i hmore
        cases taken
        exact .more hpc hmore
      · rename_i hframe
        cases taken
        exact .frame hpc hframe
      · rename_i hoverrun
        cases taken
        exact .overrun hpc hoverrun
  · intro advances
    cases advances with
    | allUpdated hpc | update hpc | allRead hpc => rw [advance, hpc]
    | nothing hpc hnone =>
        rw [advance, hpc]
        exact if_pos hnone
    | bytes hpc hsome =>
        rw [advance, hpc]
        exact if_neg hsome
    | more hpc hparse | frame hpc hparse | overrun hpc hparse =>
        rw [advance, hpc]
        dsimp only
        rw [hparse]

/-- What the network thread and the calls of `sendChunk` can do. -/
inductive StepsTo (K : Kcp κ) (s : Listening α κ) : NetEvent α → Listening α κ → Prop
  | clock (now : UInt32) (pc : s.pc = .begin) :
      StepsTo K s (.clock now) { s with pc := .burst now }
  | datagram (source : α) (data : List UInt8) {now : UInt32} (pc : s.pc = .burst now)
      (long : 4 < data.length) :
      StepsTo K s (.recvfrom (some (source, data))) (s.accept K source data)
  | noDatagram (datagram : Option (α × List UInt8)) {now : UInt32} (pc : s.pc = .burst now)
      (short : ∀ source data, datagram = some (source, data) → ¬4 < data.length) :
      StepsTo K s (.recvfrom datagram)
        { s with pc := .update now (List.finRange kNumStreams) }
  | advance {next : Listening α κ} (advances : AdvancesTo K s next) : StepsTo K s .advance next
  | sendChunk (rawPayload : List UInt8) (streamId : UInt32) :
      StepsTo K s (.sendChunk rawPayload streamId)
        (s.setKcp (streamFor streamId)
          (K.sendChunk rawPayload (s.kcps (streamFor streamId))))

theorem step_iff : step K event s = some next ↔ s.fault = false ∧ StepsTo K s event next := by
  constructor
  · intro taken
    unfold step at taken
    split at taken
    · cases taken
    rename_i hdefined
    refine ⟨Bool.eq_false_iff.mpr hdefined, ?_⟩
    cases event with
    | clock now =>
        dsimp only at taken
        split at taken
        · rename_i hpc
          cases taken
          exact .clock now hpc
        · cases taken
    | recvfrom datagram =>
        dsimp only at taken
        split at taken
        · rename_i hpc
          split at taken
          · cases taken
            exact .noDatagram none hpc fun source data heq => by cases heq
          · rename_i source data
            split at taken
            · rename_i hlong
              cases taken
              exact .datagram source data hpc hlong
            · rename_i hshort
              cases taken
              refine .noDatagram _ hpc fun source' data' heq => ?_
              cases heq
              exact hshort
        · cases taken
    | advance => exact .advance (advance_iff.mp taken)
    | sendChunk rawPayload streamId =>
        cases taken
        exact .sendChunk rawPayload streamId
  · rintro ⟨hdefined, steps⟩
    have hlive : ¬s.fault = true := Bool.eq_false_iff.mp hdefined
    unfold step
    rw [if_neg hlive]
    cases steps with
    | clock now hpc => exact if_pos hpc
    | datagram source data hpc hlong =>
        rw [hpc]
        exact if_pos hlong
    | noDatagram datagram hpc hshort =>
        rw [hpc]
        cases datagram with
        | none => rfl
        | some datagram => exact if_neg (hshort _ _ rfl)
    | advance advances => exact advance_iff.mpr advances
    | sendChunk rawPayload streamId => rfl

/-- What the functions of a stream keep, a step keeps. -/
theorem kcps_of_step (holds : Fin kNumStreams → κ → Prop)
    (input : ∀ stream data kcp, holds stream kcp → holds stream (K.input data kcp))
    (flush : ∀ stream kcp, holds stream kcp → holds stream (K.flush kcp))
    (update : ∀ stream now kcp, holds stream kcp → holds stream (K.update now kcp))
    (recv : ∀ stream kcp, holds stream kcp → holds stream (K.recv kcp).2)
    (send : event.isOwn = false → ∀ stream data kcp, holds stream kcp →
      holds stream (K.send data kcp).2)
    (taken : step K event s = some next) (before : ∀ stream, holds stream (s.kcps stream)) :
    ∀ stream, holds stream (next.kcps stream) := by
  have hset {stream : Fin kNumStreams} {kcp : κ} (new : holds stream kcp) (i : Fin kNumStreams) :
      holds i (Function.update s.kcps stream kcp i) := by
    by_cases heq : i = stream
    · subst heq
      rw [Function.update_self]
      exact new
    · rw [Function.update_of_ne heq]
      exact before i
  obtain ⟨-, hsteps⟩ := step_iff.mp taken
  cases hsteps with
  | clock now hpc | noDatagram datagram hpc hshort => exact before
  | datagram source data hpc hlong =>
      rw [accept]
      split
      all_goals exact hset (flush _ _ (input _ _ _ (before _)))
  | advance advances =>
      cases advances with
      | update hpc => exact hset (update _ _ _ (before _))
      | nothing hpc hnone | bytes hpc hnone => exact hset (recv _ _ (before _))
      | allUpdated hpc | allRead hpc | more hpc hparse | frame hpc hparse | overrun hpc hparse =>
          exact before
  | sendChunk rawPayload streamId =>
      exact hset (Kcp.sendChunk_induct (before _) (send rfl _) (flush _) rawPayload)

end Steps

/-- The machine of a transport that listens, over what its streams start as. -/
def machine (K : Kcp κ) (kcps : Fin kNumStreams → κ) :
    Machine (Listening α κ) (NetEvent α) where
  init := { kcps := kcps }
  step := step K

end Listening

end Sxaint.Net
