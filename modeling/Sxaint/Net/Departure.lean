/-
# A session of the send queue

The loop over the send queue calls `sendFile` on a session of its own, records the file as sent and
destroys the session. A chunk counts as sent once it is handed to its stream, and the destructor of
the transport stops the network thread and releases the streams as they are. What was handed over is
in the streams until it is acknowledged, and a stream that is acknowledged as a whole holds nothing
until it is given the next frame.
-/

import Sxaint.Net.KcpSend
import Sxaint.Net.Submission

namespace Sxaint.Net

open Sxaint.Core Transition

/-- How far the loop over the queue is with a session. -/
inductive Stage
  | /-- Inside `sendFile`. -/
    sending
  | /-- The file is recorded as sent. -/
    recorded
  | /-- The pool is gone and `running_` is false. -/
    stopping
  | /-- The network thread has ended. -/
    joined
  | /-- The control blocks are released, as they were. -/
    released
  deriving DecidableEq, Repr

/-- A session of the loop over the queue, with the sending half of its transport. -/
structure Departure (α : Type) where
  session : Endpoint
  transport : Listening α Kcp.Sending
  stage : Stage := .sending

/-- A step of the session, of its network thread or of the loop over the queue. -/
inductive DepartureEvent (α : Type)
  | session (event : Event)
  | network (event : NetEvent α)
  | /-- `log_history` with `"Sent"` and `"Success"`. -/
    record
  | /-- The destructors up to the assignment of `running_`. -/
    stop
  | /-- The network thread leaves its loop and is joined. -/
    join
  | release

/-- A step of the session with the queue lengths that it reads. -/
def Event.reading (waitSnd : UInt32 → Int) : Event → Event
  | .main strategy _ => .main strategy waitSnd
  | event => event

/-- The step of the session that an event is. -/
def DepartureEvent.session? {α : Type} : DepartureEvent α → Option Event
  | .session event => some event
  | _ => none

namespace Departure

variable {α : Type}

/-- `get_wait_snd` -/
def getWaitSnd (s : Departure α) (streamId : UInt32) : Int :=
  (s.transport.kcps (streamFor streamId)).waitSnd

/-- Hand frames to their streams. -/
def handOver : List (UInt32 × List UInt8) → Listening α Kcp.Sending → Listening α Kcp.Sending
  | [], transport => transport
  | (streamId, rawPayload) :: rest, transport =>
    let stream := streamFor streamId
    handOver rest
      (transport.setKcp stream (Kcp.sending.sendChunk rawPayload (transport.kcps stream)))

/-- Whether the threads of the session can take a step. The tasks end with the pool, and the
messages with the network thread. -/
def enabled (stage : Stage) (event : Event) : Bool :=
  match stage, event with
  | .sending, _ => true
  | .recorded, .main _ _ => false
  | .recorded, _ => true
  | .stopping, .deliver _ => true
  | .stopping, .network => true
  | _, _ => false

/-- One step. -/
def step (P : Platform) (event : DepartureEvent α) (s : Departure α) : Option (Departure α) :=
  match event with
  | .session event =>
    if enabled s.stage event then
      (Endpoint.step P (event.reading s.getWaitSnd) s.session).map fun session =>
        { s with
          session := session
          transport := handOver (session.outbox.drop s.session.outbox.length) s.transport }
    else none
  | .network event =>
    -- the test of `running_` at the top of the loop can be behind the thread already
    if event.isOwn ∧ (s.stage = .sending ∨ s.stage = .recorded ∨ s.stage = .stopping) then
      (Listening.step Kcp.sending event s.transport).map fun transport =>
        { s with transport := transport }
    else none
  | .record =>
    if s.stage = .sending ∧ s.session.main = .returned then some { s with stage := .recorded }
    else none
  | .stop => if s.stage = .recorded then some { s with stage := .stopping } else none
  | .join =>
    if s.stage = .stopping ∧ s.transport.pc = .begin then some { s with stage := .joined }
    else none
  | .release => if s.stage = .joined then some { s with stage := .released } else none

/-- The default of `conv_id`. -/
def convId : UInt32 := 0x11223344

/-- The streams of a transport that has connected. -/
def freshKcps (stream : Fin kNumStreams) : Kcp.Sending :=
  { conv := convId + UInt32.ofNat stream.val }

/-- A session whose transport has connected to an address. -/
def connected (target : α) (start : Endpoint) : Departure α where
  session := start
  transport := { remoteAddr := some target, kcps := freshKcps }

/-- The machine of one entry of the queue. -/
def machine (P : Platform) (target : α) (start : Endpoint) :
    Machine (Departure α) (DepartureEvent α) where
  init := connected target start
  step := step P

/-- What was handed to a stream, as bytes. -/
def given (stream : Fin kNumStreams) (outbox : List (UInt32 × List UInt8)) : List UInt8 :=
  (outbox.filter fun entry => streamFor entry.1 = stream).flatMap fun entry =>
    Kcp.Sending.handed entry.2

/-- Everything that was handed to a stream was acknowledged. -/
structure Settled (s : Departure α) (stream : Fin kNumStreams) : Prop where
  nothingWaits : (s.transport.kcps stream).waitSnd = 0
  acknowledged : (s.transport.kcps stream).acknowledged.Perm (s.transport.kcps stream).numbered
  whole : (s.transport.kcps stream).numbered.flatMap Kcp.Numbered.data =
    given stream s.session.outbox

/-! ## What the streams hold -/

theorem kcps_setKcp {κ : Type} (t : Listening α κ) (stream : Fin kNumStreams) (kcp : κ) :
    (t.setKcp stream kcp).kcps = Function.update t.kcps stream kcp :=
  rfl

/-- A session only adds to what it has handed to the transport. -/
theorem outbox_prefix_of_step {P : Platform} {event : Event} {w w' : Endpoint}
    (taken : Endpoint.Step P w event w') : w.outbox <+: w'.outbox := by
  have hsame {v : Endpoint} (outbox : v.outbox = w.outbox) : w.outbox <+: v.outbox := by
    rw [outbox]
  cases taken with
  | deliver _ received => cases received <;> exact hsame rfl
  | network => exact hsame rfl
  | handshake _ taken =>
      cases taken with
      | resumed _ _ | rejected _ _ | acknowledged _ => exact List.prefix_append _ _
      | _ => exact hsame rfl
  | recvChunk _ taken => exact hsame (Endpoint.chunkFrame_of_chunkStep taken).outbox
  | sendChunk _ taken =>
      cases taken with
      | sent => exact List.prefix_append _ _
      | _ => exact hsame rfl
  | main taken =>
      generalize w.main = pc at taken
      cases taken with
      | announced => exact List.prefix_append _ _
      | polled _ => rw [Endpoint.reportProgress_eq]
      | _ => exact hsame rfl

theorem given_append (stream : Fin kNumStreams) (front rest : List (UInt32 × List UInt8)) :
    given stream (front ++ rest) = given stream front ++ given stream rest := by
  rw [given, List.filter_append, List.flatMap_append]
  rfl

/-- A frame goes to one stream. -/
theorem given_concat (stream : Fin kNumStreams) (outbox : List (UInt32 × List UInt8))
    (entry : UInt32 × List UInt8) :
    given stream (outbox ++ [entry]) =
      given stream outbox ++
        if streamFor entry.1 = stream then Kcp.Sending.handed entry.2 else [] := by
  rw [given_append]
  congr 1
  rw [given]
  split
  · rename_i heq
    rw [List.filter_cons_of_pos (by simpa using heq), List.filter_nil, List.flatMap_singleton]
  · rename_i hne
    rw [List.filter_cons_of_neg (by simpa using hne), List.filter_nil, List.flatMap_nil]

/-- What a call of `sendChunk` keeps of a stream and the bytes it was given, frames that are handed
over keep. -/
theorem kcp_handOver (holds : List UInt8 → Kcp.Sending → Prop)
    (sendChunk : ∀ given rawPayload kcp, holds given kcp →
      holds (given ++ Kcp.Sending.handed rawPayload) (Kcp.sending.sendChunk rawPayload kcp))
    (frames : List (UInt32 × List UInt8)) {outbox : List (UInt32 × List UInt8)}
    {transport : Listening α Kcp.Sending} {stream : Fin kNumStreams}
    (before : holds (given stream outbox) (transport.kcps stream)) :
    holds (given stream (outbox ++ frames)) ((handOver frames transport).kcps stream) := by
  induction frames generalizing outbox transport with
  | nil =>
      rw [List.append_nil]
      exact before
  | cons entry rest ih =>
      rw [List.append_cons]
      apply ih
      rw [given_concat]
      by_cases heq : stream = streamFor entry.1
      · subst heq
        rw [if_pos rfl, kcps_setKcp, Function.update_self]
        exact sendChunk _ _ _ before
      · rw [if_neg (Ne.symm heq), List.append_nil, kcps_setKcp, Function.update_of_ne heq]
        exact before

theorem kcps_handOver (holds : List UInt8 → Kcp.Sending → Prop)
    (sendChunk : ∀ given rawPayload kcp, holds given kcp →
      holds (given ++ Kcp.Sending.handed rawPayload) (Kcp.sending.sendChunk rawPayload kcp))
    (outbox frames : List (UInt32 × List UInt8))
    {transport : Listening α Kcp.Sending}
    (before : ∀ stream, holds (given stream outbox) (transport.kcps stream)) :
    ∀ stream,
      holds (given stream (outbox ++ frames)) ((handOver frames transport).kcps stream) :=
  fun stream => kcp_handOver holds sendChunk frames (before stream)

theorem lossless_handOver (frames : List (UInt32 × List UInt8))
    {outbox : List (UInt32 × List UInt8)} {transport : Listening α Kcp.Sending}
    (before : ∀ stream, Kcp.Sending.Lossless (given stream outbox) (transport.kcps stream)) :
    ∀ stream, Kcp.Sending.Lossless (given stream (outbox ++ frames))
      ((handOver frames transport).kcps stream) :=
  kcps_handOver Kcp.Sending.Lossless
    (fun _ rawPayload _ lossless => Kcp.Sending.lossless_sendChunk rawPayload lossless)
    outbox frames before

/-! ## Runs -/

/-- What holds of a session that heard no rejection, with the messages that it may have heard. -/
structure Departing (P : Platform) (start : Endpoint) (heard : List (List UInt8))
    (s : Departure α) : Prop where
  session : ∃ taken, (Endpoint.machine P start).RunUnder Endpoint.Unrejected taken s.session ∧
    ∀ data ∈ deliveries taken, data ∈ heard
  lossless : ∀ stream,
    Kcp.Sending.Lossless (given stream s.session.outbox) (s.transport.kcps stream)
  returned : s.stage ≠ .sending → s.session.main = .returned

/-- The thread of the loop is past `sendFile` once the file is recorded. -/
theorem sending_of_enabled {stage : Stage} {strategy : Strategy} {waitSnd : UInt32 → Int}
    (possible : enabled stage (.main strategy waitSnd) = true) : stage = .sending := by
  cases stage with
  | sending => rfl
  | _ => cases possible

theorem delivered?_reading (waitSnd : UInt32 → Int) (event : Event) :
    (event.reading waitSnd).delivered? = event.delivered? := by
  cases event <;> rfl

theorem unrejected_reading {w : Endpoint} {event : Event} (waitSnd : UInt32 → Int)
    (unrejected : w.Unrejected event) : w.Unrejected (event.reading waitSnd) := by
  cases event with
  | main _ _ => exact fun _ => unrejected rfl
  | _ => exact unrejected

section Departing

variable {P : Platform} {start : Endpoint} {heard : List (List UInt8)} {s s' : Departure α}

theorem Departing.mono (inv : Departing P start heard s) {more : List (List UInt8)}
    (sub : heard ⊆ more) : Departing P start more s := by
  obtain ⟨taken, hrun, hheard⟩ := inv.session
  exact ⟨⟨taken, hrun, fun data hmem => sub (hheard data hmem)⟩, inv.lossless, inv.returned⟩

theorem departing_session (inv : Departing P start heard s) {event : Event}
    (unrejected : s.session.Unrejected event) (hears : ∀ data ∈ event.delivered?, data ∈ heard)
    (taken : step P (.session event) s = some s') : Departing P start heard s' := by
  rw [step] at taken
  split at taken
  · rename_i henabled
    obtain ⟨session, hstep, rfl⟩ := Option.map_eq_some_iff.mp taken
    have hcases := (Endpoint.step_cases hstep).2
    obtain ⟨before, hrun, hheard⟩ := inv.session
    obtain ⟨frames, hframes⟩ := outbox_prefix_of_step hcases
    refine ⟨⟨before ++ [event.reading s.getWaitSnd], ?_, ?_⟩, ?_, ?_⟩
    · exact hrun.snoc (unrejected_reading _ unrejected) hstep
    · intro data hmem
      rw [Endpoint.delivered_append, delivered?_reading] at hmem
      rcases List.mem_append.mp hmem with hold | hnew
      · exact hheard data hold
      · exact hears data (Option.mem_toList.mp hnew)
    · show ∀ stream, Kcp.Sending.Lossless (given stream session.outbox) _
      rw [← hframes, List.drop_left]
      exact lossless_handOver frames inv.lossless
    · intro hstage
      have hreturned := inv.returned hstage
      have hother : (event.reading s.getWaitSnd).strategy? = none := by
        cases event with
        | main _ _ => exact (hstage (sending_of_enabled henabled)).elim
        | _ => rfl
      exact (Endpoint.main_eq_of_step hcases hother).1.trans hreturned
  · cases taken

theorem departing_network (inv : Departing P start heard s) {event : NetEvent α}
    (taken : step P (.network event) s = some s') : Departing P start heard s' := by
  rw [step] at taken
  split at taken
  · rename_i henabled
    obtain ⟨transport, hstep, rfl⟩ := Option.map_eq_some_iff.mp taken
    have hkept : ∀ stream,
        Kcp.Sending.Lossless (given stream s.session.outbox) (transport.kcps stream) := by
      apply Listening.kcps_of_step (fun stream kcp =>
        Kcp.Sending.Lossless (given stream s.session.outbox) kcp) ?_ ?_ ?_ ?_ ?_ hstep inv.lossless
      · intro stream data kcp lossless
        exact Kcp.Sending.lossless_input data lossless
      · intro stream kcp lossless
        exact Kcp.Sending.lossless_flush lossless
      · intro stream now kcp lossless
        rw [Kcp.sending_update]
        exact Kcp.Sending.lossless_update now lossless
      · intro stream kcp lossless
        exact lossless
      · intro other
        cases henabled.1.symm.trans other
    exact ⟨inv.session, hkept, inv.returned⟩
  · cases taken

/-- The loop over the queue and the destructors move on. -/
inductive Moves (s : Departure α) : DepartureEvent α → Stage → Prop
  | record (returned : s.session.main = .returned) : Moves s .record .recorded
  | stop (recorded : s.stage = .recorded) : Moves s .stop .stopping
  | join (stopping : s.stage = .stopping) : Moves s .join .joined
  | release (joined : s.stage = .joined) : Moves s .release .released

theorem moves_of_step {event : DepartureEvent α} (taken : step P event s = some s') :
    (∃ own, event = .session own) ∨ (∃ own, event = .network own) ∨
      ∃ stage, s.Moves event stage ∧ s' = { s with stage := stage } := by
  cases event with
  | session own => exact .inl ⟨own, rfl⟩
  | network own => exact .inr (.inl ⟨own, rfl⟩)
  | record =>
      obtain ⟨henabled, htaken⟩ := Option.ite_none_right_eq_some.mp taken
      exact .inr (.inr ⟨_, .record henabled.2, (Option.some.inj htaken).symm⟩)
  | stop =>
      obtain ⟨henabled, htaken⟩ := Option.ite_none_right_eq_some.mp taken
      exact .inr (.inr ⟨_, .stop henabled, (Option.some.inj htaken).symm⟩)
  | join =>
      obtain ⟨henabled, htaken⟩ := Option.ite_none_right_eq_some.mp taken
      exact .inr (.inr ⟨_, .join henabled.1, (Option.some.inj htaken).symm⟩)
  | release =>
      obtain ⟨henabled, htaken⟩ := Option.ite_none_right_eq_some.mp taken
      exact .inr (.inr ⟨_, .release henabled, (Option.some.inj htaken).symm⟩)

/-- The session takes a step of its own or stays as it is. -/
theorem session_of_step {event : DepartureEvent α} (taken : step P event s = some s') :
    s'.session = s.session ∨ ∃ own, Endpoint.step P own s.session = some s'.session := by
  rcases moves_of_step taken with ⟨own, rfl⟩ | ⟨own, rfl⟩ | ⟨stage, -, rfl⟩
  · rw [step] at taken
    split at taken
    · obtain ⟨session, hstep, rfl⟩ := Option.map_eq_some_iff.mp taken
      exact .inr ⟨_, hstep⟩
    · cases taken
  · rw [step] at taken
    split at taken
    · obtain ⟨transport, -, rfl⟩ := Option.map_eq_some_iff.mp taken
      exact .inl rfl
    · cases taken
  · exact .inl rfl

theorem departing_step (inv : Departing P start heard s) {event : DepartureEvent α}
    (unrejected : ∀ own ∈ event.session?, s.session.Unrejected own ∧
      ∀ data ∈ own.delivered?, data ∈ heard)
    (taken : step P event s = some s') : Departing P start heard s' := by
  rcases moves_of_step taken with ⟨own, rfl⟩ | ⟨own, rfl⟩ | ⟨stage, hmoves, rfl⟩
  · exact departing_session inv (unrejected own rfl).1 (unrejected own rfl).2 taken
  · exact departing_network inv taken
  · refine ⟨inv.session, inv.lossless, fun _ => ?_⟩
    cases hmoves with
    | record returned => exact returned
    | stop recorded => exact inv.returned (by rw [recorded]; rintro ⟨⟩)
    | join stopping => exact inv.returned (by rw [stopping]; rintro ⟨⟩)
    | release joined => exact inv.returned (by rw [joined]; rintro ⟨⟩)

theorem departing_connected (P : Platform) (target : α) (fresh : start.outbox = []) :
    Departing P start [] (connected target start) := by
  refine ⟨⟨[], .start, by rintro _ ⟨⟩⟩, fun stream => ?_, fun h => (h rfl).elim⟩
  show Kcp.Sending.Lossless (given stream start.outbox) _
  rw [fresh]
  exact Kcp.Sending.lossless_create _

end Departing

/-! ## A stream that is acknowledged -/

/-- From some bytes on that it was given, a stream holds nothing as long as it is given no more. -/
structure Idle (stream : Fin kNumStreams) (before : List UInt8) (s : Departure α) : Prop where
  grown : before <+: given stream s.session.outbox
  nothing : given stream s.session.outbox = before → (s.transport.kcps stream).waitSnd = 0

section Idle

variable {P : Platform} {s s' : Departure α} {stream : Fin kNumStreams} {before : List UInt8}

/-- A stream that was given nothing holds nothing. -/
theorem idle_connected (target : α) (start : Endpoint) :
    Idle stream [] (connected target start) :=
  ⟨List.nil_prefix, fun _ => rfl⟩

/-- A frame that is handed over after those bytes ends the time without more, unless it is empty. -/
private theorem idle_sendChunk {given rawPayload : List UInt8} {kcp : Kcp.Sending}
    (idle : before <+: given ∧ (given = before → kcp.waitSnd = 0)) :
    before <+: given ++ Kcp.Sending.handed rawPayload ∧
      (given ++ Kcp.Sending.handed rawPayload = before →
        (Kcp.sending.sendChunk rawPayload kcp).waitSnd = 0) := by
  refine ⟨idle.1.trans (List.prefix_append _ _), fun hsame => ?_⟩
  have hlength := congrArg List.length hsame
  rw [List.length_append] at hlength
  have hgrown := idle.1.length_le
  have hempty : Kcp.Sending.handed rawPayload = [] := List.eq_nil_of_length_eq_zero (by omega)
  rw [hempty, List.append_nil] at hsame
  exact Kcp.Sending.waitSnd_sendChunk hempty (idle.2 hsame)

private theorem idle_session (idle : s.Idle stream before) {event : Event}
    (taken : step P (.session event) s = some s') : s'.Idle stream before := by
  rw [step] at taken
  split at taken
  · obtain ⟨session, hstep, rfl⟩ := Option.map_eq_some_iff.mp taken
    obtain ⟨frames, hframes⟩ := outbox_prefix_of_step (Endpoint.step_cases hstep).2
    have hkept := kcp_handOver
      (fun given kcp => before <+: given ∧ (given = before → kcp.waitSnd = 0))
      (fun _ _ _ => idle_sendChunk) frames ⟨idle.grown, idle.nothing⟩
    rw [hframes] at hkept
    refine ⟨hkept.1, fun hsame => ?_⟩
    show ((handOver (session.outbox.drop s.session.outbox.length)
      s.transport).kcps stream).waitSnd = 0
    rw [← hframes, List.drop_left]
    exact hkept.2 hsame
  · cases taken

private theorem idle_network (idle : s.Idle stream before) {event : NetEvent α}
    (taken : step P (.network event) s = some s') : s'.Idle stream before := by
  rw [step] at taken
  split at taken
  · rename_i henabled
    obtain ⟨transport, hstep, rfl⟩ := Option.map_eq_some_iff.mp taken
    refine ⟨idle.grown, fun hsame => ?_⟩
    refine Listening.kcps_of_step (fun i (kcp : Kcp.Sending) => i = stream → kcp.waitSnd = 0)
      ?_ ?_ ?_ ?_ ?_ hstep ?_ stream rfl
    · intro i data kcp nothing hi
      exact Kcp.Sending.waitSnd_inputLoop _ data (nothing hi)
    · intro i kcp nothing hi
      exact (Kcp.Sending.waitSnd_flush kcp).trans (nothing hi)
    · intro i now kcp nothing hi
      rw [Kcp.sending_update]
      exact (Kcp.Sending.waitSnd_update now kcp).trans (nothing hi)
    · intro i kcp nothing hi
      exact nothing hi
    · intro other
      cases henabled.1.symm.trans other
    · rintro i rfl
      exact idle.nothing hsame
  · cases taken

theorem idle_step (idle : s.Idle stream before) {event : DepartureEvent α}
    (taken : step P event s = some s') : s'.Idle stream before := by
  rcases moves_of_step taken with ⟨own, rfl⟩ | ⟨own, rfl⟩ | ⟨stage, -, rfl⟩
  · exact idle_session idle taken
  · exact idle_network idle taken
  · exact ⟨idle.grown, idle.nothing⟩

/-- When a datagram is read that acknowledges all of its stream, the stream holds nothing. -/
theorem idle_of_acknowledges {source : α} {data : List UInt8} (long : 4 < data.length)
    (acknowledges : Kcp.Sending.Acknowledges data (s.transport.kcps (streamOf data)))
    (taken : step P (.network (.recvfrom (some (source, data)))) s = some s') :
    s'.Idle (streamOf data) (given (streamOf data) s.session.outbox) := by
  rw [step] at taken
  split at taken
  · obtain ⟨transport, hstep, rfl⟩ := Option.map_eq_some_iff.mp taken
    refine ⟨List.prefix_rfl, fun _ => ?_⟩
    show (transport.kcps (streamOf data)).waitSnd = 0
    obtain ⟨-, hsteps⟩ := Listening.step_iff.mp hstep
    have hnothing := (Kcp.Sending.waitSnd_flush _).trans (Kcp.Sending.waitSnd_input acknowledges)
    cases hsteps with
    | noDatagram datagram hpc hshort => exact absurd long (hshort source data rfl)
    | datagram _ _ hpc hlong =>
        rw [Listening.accept]
        split
        all_goals
          rw [kcps_setKcp, Function.update_self]
          exact hnothing
  · cases taken

end Idle

/-! ## Known runs -/

/-- A round of the network thread in which some datagrams have arrived. -/
def round (now : UInt32) (datagrams : List (List UInt8)) : List (DepartureEvent Unit) :=
  [.network (.clock now)] ++ datagrams.map (fun data => .network (.recvfrom (some ((), data)))) ++
    [.network (.recvfrom none)] ++ List.replicate 10 (.network .advance)

/-- The datagram with which the first stream acknowledges a segment. -/
def acknowledging (sn : ℕ) : List UInt8 :=
  LittleEndian.encode 4 convId.toNat ++ [82, 0] ++ LittleEndian.encode 2 Kcp.wndRcv ++
    LittleEndian.encode 4 0 ++ LittleEndian.encode 4 sn ++ LittleEndian.encode 4 (sn + 1) ++
    LittleEndian.encode 4 0

end Departure

end Sxaint.Net
