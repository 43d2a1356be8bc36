/-
# What the record of a transfer is worth

A session of the send queue together with a receiver. The queue records a file as sent once
`sendFile` has returned, and nothing in the program connects that with what the receiver did:
`sendFile` returns after a rejection too, an acknowledgement may answer another handshake, and what
waits in the streams is released with them. The record means what it says in the runs in which the
two sides have only each other to hear, no rejection is seen, and the last frame of every stream is
acknowledged while it is in flight.
-/

import Sxaint.Machine.Purge
import Sxaint.Net.Departure

namespace Sxaint.Net

open Sxaint.Core Transition

/-! ## The receiver -/

/-- A handshake that a task has accepted is one of those announced. -/
def Task.Announced (announced : List (UInt32 × List UInt8)) : Task → Prop
  | .handshake hs pc => pc.inProgress = true ∨ pc = .accepted → (0, hs.encode) ∈ announced
  | _ => True

namespace Endpoint

theorem isAck_of_messageKind {frame : UInt32 × List UInt8}
    (kind : messageKind frame.2 = some .handshakeAck) : IsAck frame := by
  obtain ⟨type, hhead, htype⟩ := Option.bind_eq_some_iff.mp kind
  rw [IsAck, hhead, MessageType.eq_toByte_of_ofByte htype]

variable {P : Platform} {pin : UInt32} {outputDir : Path} {announced : List (UInt32 × List UInt8)}
  {event : Event} {w w' : Endpoint}

/-- What a receiver acknowledges is an announced handshake that it has accepted. -/
structure Accepting (announced : List (UInt32 × List UInt8)) (w : Endpoint) : Prop where
  tasks : ∀ task ∈ w.tasks, task.Announced announced
  acks : ∀ frame ∈ w.outbox, IsAck frame → ∃ hs packed,
    frame = (0, ackMessage hs.totalChunks packed) ∧ Task.handshake hs .accepted ∈ w.tasks

theorem Accepting.mono (inv : Accepting announced w) {more : List (UInt32 × List UInt8)}
    (sub : announced ⊆ more) : Accepting more w := by
  refine ⟨fun task hmem => ?_, inv.acks⟩
  have hannounced := inv.tasks task hmem
  cases task with
  | handshake hs pc => exact fun accepted => sub (hannounced accepted)
  | recvChunk _ _ _ | sendChunk _ _ => trivial

/-- A handshake that was accepted stays accepted. -/
theorem accepted_of_step (taken : Step P w event w') {hs : Handshake}
    (accepted : Task.handshake hs .accepted ∈ w.tasks) :
    Task.handshake hs .accepted ∈ w'.tasks := by
  cases taken with
  | deliver idle received =>
      cases received with
      | handshake _ | chunk _ _ => exact List.mem_append_left _ accepted
      | _ => exact accepted
  | network => exact accepted
  | @handshake index _ hs' pc next v found taken =>
      show _ ∈ v.tasks.set index _
      rw [(taskFrame_of_handshakeStep taken).tasks]
      refine Pool.mem_set_of_ne found accepted ?_ _
      rintro heq
      obtain ⟨-, rfl⟩ := Task.handshake.inj heq
      exact taken.false_of_returned (by rintro ⟨⟩) rfl
  | @recvChunk index _ _ _ _ _ v found taken =>
      show _ ∈ v.tasks.set index _
      rw [(chunkFrame_of_chunkStep taken).tasks]
      exact Pool.mem_set_of_ne found accepted (by rintro ⟨⟩) _
  | @sendChunk index _ _ _ _ v found taken =>
      show _ ∈ v.tasks.set index _
      rw [(senderFrame_of_sendStep taken).tasks]
      exact Pool.mem_set_of_ne found accepted (by rintro ⟨⟩) _
  | main taken =>
      generalize w.main = pc at taken
      cases taken with
      | submitted _ => exact List.mem_append_left _ accepted
      | polled _ =>
          rw [reportProgress_eq]
          exact accepted
      | _ => exact accepted

/-- A step in which nothing is acknowledged. -/
private theorem Accepting.silent (inv : Accepting announced w) (taken : Step P w event w')
    (tasks : ∀ task ∈ w'.tasks, task.Announced announced)
    (silent : ∀ frame ∈ w'.outbox, frame ∈ w.outbox ∨ ¬ IsAck frame) :
    Accepting announced w' := by
  refine ⟨tasks, fun frame hmem hack => ?_⟩
  obtain ⟨hs, packed, hframe, hdone⟩ :=
    inv.acks frame ((silent frame hmem).resolve_right (not_not.mpr hack)) hack
  exact ⟨hs, packed, hframe, accepted_of_step taken hdone⟩

/-- A receiver that only looks at announced handshakes, each while none is in force. -/
theorem accepting_step (inv : Accepting announced w) (receiver : Receiver pin outputDir w)
    (looks : ∀ hs ∈ w.entering event, (0, hs.encode) ∈ announced ∧ w.expectedChunks = 0)
    (taken : Step P w event w') : Accepting announced w' := by
  have hstep := taken
  cases taken with
  | deliver idle received =>
      cases received with
      | handshake carried =>
          refine inv.silent hstep (Pool.forall_submit inv.tasks ?_) fun _ => .inl
          rintro (h | h) <;> cases h
      | chunk _ carried =>
          exact inv.silent hstep (Pool.forall_submit inv.tasks trivial) fun _ => .inl
      | _ => exact inv.silent hstep inv.tasks fun _ => .inl
  | network => exact inv.silent hstep inv.tasks fun _ => .inl
  | @handshake index ok hs pc next v found taken =>
      have hlooks (entering : pc = .enter) :
          (0, hs.encode) ∈ announced ∧ w.expectedChunks = 0 := by
        subst entering
        exact looks hs (mem_entering.mpr found)
      have htasks : ∀ task ∈ v.tasks.set index (.handshake hs next), task.Announced announced := by
        rw [(taskFrame_of_handshakeStep taken).tasks]
        refine Pool.forall_set inv.tasks index fun accepted => ?_
        rcases taken.accepted_or_admitted accepted with hbefore | ⟨hentering, -, -⟩
        · exact inv.tasks _ (List.mem_of_getElem? found) hbefore
        · exact (hlooks hentering).1
      cases taken with
      | resumed latched _ => exact (latched (hlooks rfl).2).elim
      | rejected _ _ =>
          refine inv.silent hstep htasks fun frame hmem => ?_
          rcases List.mem_append.mp hmem with hold | hnew
          · exact .inl hold
          · obtain rfl := List.mem_singleton.mp hnew
            exact .inr (by decide)
      | @acknowledged packed written =>
          refine ⟨htasks, fun frame hmem hack => ?_⟩
          rcases List.mem_append.mp hmem with hold | hnew
          · obtain ⟨hs', packed', hframe, hdone⟩ := inv.acks frame hold hack
            exact ⟨hs', packed', hframe, accepted_of_step hstep hdone⟩
          · obtain rfl := List.mem_singleton.mp hnew
            have hlt := (List.getElem?_eq_some_iff.mp found).1
            exact ⟨hs, packed, rfl, List.mem_of_getElem? (List.getElem?_set_self hlt)⟩
      | _ => exact inv.silent hstep htasks fun _ => .inl
  | @recvChunk index _ _ _ _ _ v found taken =>
      have hframe := chunkFrame_of_chunkStep taken
      refine inv.silent hstep ?_ fun frame hmem => .inl (hframe.outbox ▸ hmem)
      show ∀ task ∈ v.tasks.set index _, _
      rw [hframe.tasks]
      exact Pool.forall_set inv.tasks index trivial
  | sendChunk found taken => exact (receiver.tasks _ (List.mem_of_getElem? found)).elim
  | main taken =>
      obtain ⟨-, rfl⟩ := returned_of_mainStep receiver.main taken
      exact inv.silent hstep inv.tasks fun _ => .inl

end Endpoint

/-! ## The two sides -/

/-- A session of the send queue and a receiver. -/
structure Exchange (α : Type) where
  sender : Departure α
  receiver : Endpoint

/-- A step of one of the two. -/
inductive ExchangeEvent (α : Type)
  | sender (event : DepartureEvent α)
  | receiver (event : Event)

namespace Exchange

variable {α : Type}

/-- One step. Any message may reach either side. -/
def step (P Q : Platform) (event : ExchangeEvent α) (s : Exchange α) : Option (Exchange α) :=
  match event with
  | .sender event =>
    (Departure.step P event s.sender).map fun sender => { s with sender := sender }
  | .receiver event =>
    (Endpoint.step Q event s.receiver).map fun receiver => { s with receiver := receiver }

/-- The machine of an entry of the queue and of a receiver. -/
def machine (P Q : Platform) (target : α) (start receiver : Endpoint) :
    Machine (Exchange α) (ExchangeEvent α) where
  init := ⟨Departure.connected target start, receiver⟩
  step := step P Q

/-- The sender hears what the receiver has sent, and sees no rejection. The receiver looks at
handshakes of this sender only, each while none is in force. -/
def Paired (s : Exchange α) : ExchangeEvent α → Prop
  | .sender event => ∀ own ∈ event.session?, s.sender.session.Unrejected own ∧
      ∀ data ∈ own.delivered?, data ∈ s.receiver.outbox.map Prod.snd
  | .receiver event => ∀ hs ∈ s.receiver.entering event,
      (0, hs.encode) ∈ s.sender.session.outbox ∧ s.receiver.expectedChunks = 0

instance (s : Exchange α) : (event : ExchangeEvent α) → Decidable (s.Paired event)
  | .sender event =>
    have (data : List UInt8) : Decidable (data ∈ s.receiver.outbox.map Prod.snd) :=
      decidable_of_iff (∃ frame ∈ s.receiver.outbox, frame.2 = data) List.mem_map.symm
    have (own : Event) : Decidable (∀ data ∈ own.delivered?,
        data ∈ s.receiver.outbox.map Prod.snd) := Option.decidableForallMem own.delivered?
    Option.decidableForallMem event.session?
  | .receiver event => Option.decidableForallMem (s.receiver.entering event)

/-- The last frame of a stream is acknowledged in flight: in a run to some state, a datagram is read
that acknowledges all that the stream holds, and no more is handed to the stream after it. -/
def Answered (P Q : Platform) (target : α) (start receiver : Endpoint)
    (events : List (ExchangeEvent α)) (s : Exchange α) (stream : Fin kNumStreams) : Prop :=
  ∃ v source data,
    (machine P Q target start receiver).Leaves events v
      (.sender (.network (.recvfrom (some (source, data))))) ∧
    streamOf data = stream ∧
    Kcp.Sending.Acknowledges data (v.sender.transport.kcps stream) ∧
    Departure.given stream s.sender.session.outbox = Departure.given stream v.sender.session.outbox

/-- The receiver has accepted a handshake of the sender, which has the right pin, and has
acknowledged it with some bits. -/
def Accepted (s : Exchange α) (bits : List Bool) : Prop :=
  ∃ hs packed, (0, hs.encode) ∈ s.sender.session.outbox ∧ hs.pin = s.receiver.expectedPin ∧
    Task.handshake hs .accepted ∈ s.receiver.tasks ∧
    (0, Endpoint.ackMessage hs.totalChunks packed) ∈ s.receiver.outbox ∧
    BitField.readBits packed (List.range hs.totalChunks.toNat) = some bits

/-- What a record of success says: the receiver accepted, every chunk that its bits do not have was
handed over, and everything that was handed over was acknowledged. -/
structure Backed (contents : List UInt8) (s : Exchange α) : Prop where
  accepted : s.Accepted s.sender.session.resumeBitfield
  handedOver : ∀ i < (Chunker.totalChunks contents.length Chunker.kDefaultChunkSize).toNat,
    s.sender.session.resumeBitfield.getD i false = false → s.sender.session.HandedOver i
  settled : ∀ stream, s.sender.Settled stream

/-- The invariant of a paired run. -/
private structure Pairing (P : Platform) (start : Endpoint) (pin : UInt32) (outputDir : Path)
    (s : Exchange α) : Prop where
  departing : Departure.Departing P start (s.receiver.outbox.map Prod.snd) s.sender
  receiver : Endpoint.Receiver pin outputDir s.receiver
  accepting : Endpoint.Accepting s.sender.session.outbox s.receiver

section Pairing

variable {P Q : Platform} {target : α} {start : Endpoint} {pin : UInt32} {outputDir : Path}
  {event : ExchangeEvent α} {s s' : Exchange α}

private theorem pairing_step (inv : Pairing P start pin outputDir s) (paired : s.Paired event)
    (taken : step P Q event s = some s') : Pairing P start pin outputDir s' := by
  cases event with
  | sender event =>
      obtain ⟨sender, hstep, rfl⟩ := Option.map_eq_some_iff.mp taken
      refine ⟨Departure.departing_step inv.departing paired hstep, inv.receiver, ?_⟩
      rcases Departure.session_of_step hstep with hsame | ⟨own, hown⟩
      · show Endpoint.Accepting sender.session.outbox s.receiver
        rw [hsame]
        exact inv.accepting
      · apply inv.accepting.mono
        exact (Departure.outbox_prefix_of_step (Endpoint.step_cases hown).2).subset
  | receiver event =>
      obtain ⟨receiver, hstep, rfl⟩ := Option.map_eq_some_iff.mp taken
      have hcases := (Endpoint.step_cases hstep).2
      refine ⟨inv.departing.mono ?_, Endpoint.receiver_step inv.receiver hcases, ?_⟩
      · exact List.map_subset _ (Departure.outbox_prefix_of_step hcases).subset
      · exact Endpoint.accepting_step inv.accepting inv.receiver paired hcases

private theorem pairing_run {onProgress : Bool} {disk : List Path}
    {events : List (ExchangeEvent α)} (fresh : start.outbox = [])
    (run : (machine P Q target start (Endpoint.recvFile outputDir pin onProgress disk)).RunUnder
      Paired events s) : Pairing P start pin outputDir s := by
  apply run.invariant ?_ fun state event next inv paired taken => pairing_step inv paired taken
  refine ⟨Departure.departing_connected P target fresh, ?_, ⟨?_, ?_⟩⟩
  · exact Endpoint.receiver_recvFile outputDir pin onProgress disk
  · rintro _ ⟨⟩
  · rintro _ ⟨⟩

/-- What a sender has taken for an acknowledgement of its own handshake was one. -/
private theorem Pairing.accepted (inv : Pairing P start pin outputDir s) {events : List Event}
    {bits : List Bool} (heard : Endpoint.HeardAck events bits)
    (sent : ∀ data ∈ deliveries events, data ∈ s.receiver.outbox.map Prod.snd) :
    s.Accepted bits := by
  obtain ⟨data, hmem, hack, hbits⟩ := heard
  obtain ⟨frame, hframe, rfl⟩ := List.mem_map.mp (sent data hmem)
  have hkind := (of_decide_eq_true hack).1
  obtain ⟨hs, packed, rfl, hdone⟩ :=
    inv.accepting.acks frame hframe (Endpoint.isAck_of_messageKind hkind)
  have hpin := inv.receiver.tasks _ hdone (.inr rfl)
  rw [Endpoint.ackBits_ackMessage] at hbits
  exact ⟨hs, packed, inv.accepting.tasks _ hdone (.inr rfl),
    hpin.trans inv.receiver.expectedPin.symm, hdone, hframe, hbits⟩

end Pairing

section Idle

variable {P Q : Platform} {target : α} {start receiver : Endpoint}
  {allowed : Exchange α → ExchangeEvent α → Prop} {events : List (ExchangeEvent α)}
  {s : Exchange α} {stream : Fin kNumStreams}

theorem idle_step {event : ExchangeEvent α} {s' : Exchange α} {before : List UInt8}
    (idle : s.sender.Idle stream before) (taken : step P Q event s = some s') :
    s'.sender.Idle stream before := by
  cases event with
  | sender event =>
      obtain ⟨sender, hstep, rfl⟩ := Option.map_eq_some_iff.mp taken
      exact Departure.idle_step idle hstep
  | receiver event =>
      obtain ⟨receiver, -, rfl⟩ := Option.map_eq_some_iff.mp taken
      exact idle

/-- A stream whose last frame was acknowledged in flight holds nothing any more. -/
theorem waitSnd_of_answered
    (run : (machine P Q target start receiver).RunUnder allowed events s)
    (answered : Answered P Q target start receiver events s stream) :
    (s.sender.transport.kcps stream).waitSnd = 0 := by
  obtain ⟨v, source, data, hleaves, rfl, hacknowledges, hsame⟩ := answered
  have hidle : s.sender.Idle (streamOf data)
      (Departure.given (streamOf data) v.sender.session.outbox) := by
    refine hleaves.lasting ?_ (fun state event next => idle_step) run
    intro next taken
    obtain ⟨sender, hstep, rfl⟩ := Option.map_eq_some_iff.mp taken
    exact Departure.idle_of_acknowledges hacknowledges.long hacknowledges hstep
  exact hidle.nothing hsame

/-- A stream that was given nothing holds nothing. -/
theorem waitSnd_of_unused
    (run : (machine P Q target start receiver).RunUnder allowed events s)
    (unused : Departure.given stream s.sender.session.outbox = []) :
    (s.sender.transport.kcps stream).waitSnd = 0 := by
  have hidle : s.sender.Idle stream [] := by
    clear unused
    induction run with
    | start => exact Departure.idle_connected target start
    | snoc _ _ taken ih => exact idle_step ih taken
  exact hidle.nothing unused

end Idle

/-- In a paired run, what is released was accepted by the receiver, and acknowledged as a whole if
the last frame of every stream was acknowledged in flight. -/
theorem backed_of_paired {P Q : Platform} {target : α} {fileName contents : List UInt8}
    {pin expectedPin : UInt32} {onProgress reports : Bool} {disk files : List Path}
    {outputDir : Path} {start : Endpoint} {events : List (ExchangeEvent α)} {s : Exchange α}
    (opened : Endpoint.sendFile fileName contents pin onProgress disk = some start)
    (run : (machine P Q target start
      (Endpoint.recvFile outputDir expectedPin reports files)).RunUnder Paired events s)
    (answered : ∀ stream, Departure.given stream s.sender.session.outbox = [] ∨
      Answered P Q target start (Endpoint.recvFile outputDir expectedPin reports files) events s
        stream)
    (gone : s.sender.stage = .released) : s.Backed contents := by
  have inv := pairing_run (Endpoint.outbox_of_sendFile opened) run
  obtain ⟨taken, hrun, hheard⟩ := inv.departing.session
  have hreturned := inv.departing.returned (by rw [gone]; rintro ⟨⟩)
  obtain ⟨hack, hhanded⟩ := Endpoint.handedOver_of_returned opened hrun hreturned
  refine ⟨inv.accepted hack hheard, hhanded, fun stream => ?_⟩
  have hwaits : (s.sender.transport.kcps stream).waitSnd = 0 := by
    rcases answered stream with hunused | hanswered
    · exact waitSnd_of_unused run hunused
    · exact waitSnd_of_answered run hanswered
  obtain ⟨hacknowledged, hwhole⟩ := (inv.departing.lossless stream).settled hwaits
  exact ⟨hwaits, hacknowledged, hwhole⟩

/-! ## A transfer that is accepted, and one that is refused -/

/-- A sender of a file that holds the byte `A` and a receiver. -/
abbrev exchange (expectedPin : UInt32) : Machine (Exchange Unit) (ExchangeEvent Unit) :=
  machine KnownAnswers.platform KnownAnswers.platform () (KnownAnswers.sender 65)
    (Endpoint.recvFile KnownAnswers.outputDir expectedPin false [KnownAnswers.outputDir])

/-- Some steps of the sender. -/
def bySender (events : List (DepartureEvent Unit)) : List (ExchangeEvent Unit) :=
  events.map .sender

/-- The announcement is sent and its segment acknowledged; it reaches the receiver, whose task takes
a number of steps. -/
def announcement (count : ℕ) : List (ExchangeEvent Unit) :=
  bySender ((KnownAnswers.mainSteps 2).map .session ++ Departure.round 0 [] ++
      Departure.round 5 [Departure.acknowledging 0]) ++
    .receiver (.deliver (KnownAnswers.handshakeMessage 123456 1 1)) ::
      (KnownAnswers.steps 0 count).map .receiver

/-- The acknowledgement arrives, and the chunk is sent and flushed. -/
def dispatch : List (ExchangeEvent Unit) :=
  announcement 11 ++ bySender ((KnownAnswers.sending.drop 2).map .session ++
    [.record, .stop, .network (.clock 10)])

/-- Its segment is acknowledged before the network thread ends. -/
def acceptedTransfer : List (ExchangeEvent Unit) :=
  dispatch ++ .sender (.network (.recvfrom (some ((), Departure.acknowledging 1)))) ::
    bySender ([.network (.recvfrom none)] ++ List.replicate 10 (.network .advance) ++
      [.join, .release])

theorem backed_of_acceptedTransfer :
    ((exchange 123456).reached acceptedTransfer).Backed [65] := by
  refine backed_of_paired (show Endpoint.sendFile [97] [65] 123456 false [] = _ from rfl)
    (Machine.runUnder_reached (by decide +kernel)) ?_ (by decide +kernel)
  intro stream
  by_cases hfirst : stream = 0
  · subst hfirst
    exact .inr ⟨(exchange 123456).reached dispatch, (), Departure.acknowledging 1,
      ⟨dispatch, _, rfl, Machine.run_reached (by decide +kernel)⟩, by decide +kernel,
      by decide +kernel, by decide +kernel⟩
  · left
    revert stream
    decide +kernel

/-- The receiver expects another pin. -/
def refusedTransfer : List (ExchangeEvent Unit) :=
  announcement 1 ++ bySender ([.session (.deliver handshakeRejectMessage), .session .network] ++
    (KnownAnswers.mainSteps 2).map .session ++ [.record, .stop, .join, .release])

/-- The transfer is recorded as sent all the same. -/
theorem unbacked_of_refusedTransfer :
    (exchange 654321).Run refusedTransfer ((exchange 654321).reached refusedTransfer) ∧
      ((exchange 654321).reached refusedTransfer).sender.stage = .released ∧
      ¬ ((exchange 654321).reached refusedTransfer).Backed [65] := by
  refine ⟨Machine.run_reached (by decide +kernel), by decide +kernel, ?_⟩
  intro backed
  obtain ⟨hs, packed, -, -, hdone, -⟩ := backed.accepted
  have htasks : ((exchange 654321).reached refusedTransfer).receiver.tasks =
      [.handshake (Handshake.decode (KnownAnswers.handshakeMessage 123456 1 1)) .answered] := by
    decide +kernel
  rw [htasks] at hdone
  cases List.mem_singleton.mp hdone

end Exchange

end Sxaint.Net
