/-
# A file arrives

A session that sends a file and one that receives it, over their transports and a network that
loses, repeats, reorders and delays datagrams. That each message of the sender comes at most once,
that chunks come after the acknowledgement and that what comes back are answers is not assumed here:
each side keeps to it because of what the other one and the streams do.
-/

import Sxaint.Net.Stack

namespace Sxaint.Net

open Sxaint.Core Transition

open Sxaint.Ikcp (Side)

/-! ## The payloads of all streams -/

section Payloads

variable {got sent : List Payload}

theorem count_onStream (stream : Fin kNumStreams) (rawPayload : List UInt8)
    (payloads : List Payload) :
    (onStream stream payloads).count rawPayload = payloads.count (stream, rawPayload) := by
  induction payloads with
  | nil => rfl
  | cons payload payloads ih =>
      obtain ⟨other, data⟩ := payload
      by_cases hstream : other = stream
      · have hfirst : onStream stream ((other, data) :: payloads) =
            data :: onStream stream payloads := by
          simp [onStream, hstream]
        rw [hfirst, List.count_cons, List.count_cons, ih]
        simp [hstream]
      · have hfirst : onStream stream ((other, data) :: payloads) = onStream stream payloads := by
          simp [onStream, hstream]
        rw [hfirst, List.count_cons, ih]
        simp [hstream]

/-- What is first on each stream is some of all. -/
theorem subperm_of_prefix (front : ∀ stream, onStream stream got <+: onStream stream sent) :
    (got.map Prod.snd).Subperm (sent.map Prod.snd) := by
  have hsome : got.Subperm sent := by
    rw [List.subperm_ext_iff]
    rintro ⟨stream, rawPayload⟩ -
    rw [← count_onStream, ← count_onStream]
    exact (front stream).sublist.count_le rawPayload
  obtain ⟨some, hperm, hsublist⟩ := hsome
  exact ⟨some.map Prod.snd, hperm.map Prod.snd, hsublist.map Prod.snd⟩

theorem perm_of_onStream (same : ∀ stream, onStream stream got = onStream stream sent) :
    (got.map Prod.snd).Perm (sent.map Prod.snd) := by
  refine List.Perm.map _ (List.perm_iff_count.mpr ?_)
  rintro ⟨stream, rawPayload⟩
  rw [← count_onStream, ← count_onStream, same]

end Payloads

/-! ## The sizes of the messages -/

namespace SourceFile

variable {P : Platform} {file : SourceFile} {pin : UInt32} {fileName : List UInt8}

/-- What the transfer relies on the libraries for, and the limits below which no size wraps: the
packed bits of all chunks are counted in 32 bits, and a frame in 31. -/
structure Fitting (P : Platform) (file : SourceFile) : Prop extends file.Supported P where
  countable : file.chunkCount ≤ 2 ^ 32 - 8
  framed : ∀ size ≤ Chunker.kDefaultChunkSize,
    ChunkWireHeader.size + SmartCompressor.getCompressBound P.codecs size file.strategy + 20 <
      2 ^ 31

theorem sizable_of_mem (fitting : file.Fitting P) {data : List UInt8}
    (mem : data ∈ file.transmission P pin fileName) : Sizable data := by
  rcases mem_transmission fitting.toSupported mem with rfl | ⟨i, ⟨header, payload⟩, hsent, rfl, -⟩
  · rw [Sizable, Handshake.length_encode (Handshake.length_nameField fileName)]
    decide
  · obtain ⟨packed, hpacked, hbound, -⟩ := packed_isSome fitting.inverts hsent.inside
    obtain ⟨bytes, hencrypt, hlength, -⟩ := Crypto.decrypt_encrypt fitting.lawful packed
      (Crypto.deriveKey P.ssl pin) (UInt32.ofNat i)
    have hsealed := hsent.sealed
    rw [sealedChunk, hpacked, Option.bind_some, hencrypt] at hsealed
    have hchunk : (file.chunk i).length ≤ Chunker.kDefaultChunkSize := by
      rw [length_chunk hsent.inside]
      exact Chunker.chunkLength_le _ _ _
    have hframed := fitting.framed _ hchunk
    rw [Sizable, List.length_append, ChunkWireHeader.length_encode, ← Option.some.inj hsealed]
    omega

end SourceFile

namespace Endpoint

variable {P : Platform} {file : SourceFile} {pin : UInt32} {fileName : List UInt8}

theorem length_packed_le {manifest : TransferManifest} {packed : List UInt8}
    (written : manifest.packBitfield = some packed) : packed.length ≤ 2 ^ 29 := by
  rw [TransferManifest.length_packBitfield written, TransferManifest.packedSize, UInt32.toNat_div]
  have hlt := (manifest.totalChunks + 7).toNat_lt
  show _ / 8 ≤ _
  omega

/-- Whatever a receiver hands over fits in a frame. -/
theorem sizable_of_receiver {outputDir : Path} {onProgress : Bool} {disk : List Path}
    {allowed : Endpoint → Event → Prop} {events : List Event} {w : Endpoint}
    (run : (machine P (recvFile outputDir pin onProgress disk)).RunUnder allowed events w) :
    ∀ frame ∈ w.outbox, Sizable frame.2 := by
  induction run with
  | start =>
      rintro _ ⟨⟩
  | @snoc events w w' event prior ok taken ih =>
      have hstep := (step_cases (show step P event w = some w' from taken)).2
      obtain ⟨frames, hframes⟩ := Departure.outbox_prefix_of_step hstep
      have hanswer := answer_of_step (receiver_run prior) hstep
      rw [sent_of_outbox hframes.symm] at hanswer
      rw [← hframes]
      intro frame hframe
      rcases List.mem_append.mp hframe with hold | hnew
      · exact ih frame hold
      cases hanswer with
      | silent => cases hnew
      | acked _ _ written =>
          obtain rfl := List.mem_singleton.mp hnew
          have hle := length_packed_le written
          rw [Sizable, ackMessage, List.length_append, HandshakeAck.length_encode,
            HandshakeAck.size]
          omega
      | rejected _ _ _ =>
          obtain rfl := List.mem_singleton.mp hnew
          decide

/-! ## The answers -/

/-- An acknowledgement of a file of which nothing is stored. -/
structure ClearAck (file : SourceFile) (data : List UInt8) : Prop where
  type : data.head? = some MessageType.handshakeAck.toByte
  carries : CarriesBits data
  bits : ackBits data = some (List.replicate file.chunkCount false)

theorem ClearAck.kind {data : List UInt8} (clear : ClearAck file data) :
    messageKind data = some .handshakeAck := by
  rw [messageKind, clear.type]
  exact MessageType.ofByte_toByte .handshakeAck

theorem ClearAck.isAnswer {data : List UInt8} (clear : ClearAck file data) : IsAnswer data :=
  .inr ⟨clear.kind, clear.carries⟩

theorem clearAck_of_written {w : Endpoint} {packed : List UInt8} (sendable : file.Sendable)
    (countable : file.chunkCount ≤ 2 ^ 32 - 8)
    (allotted : Allotted (file.announcement pin fileName) w)
    (fresh : ∀ i : ℕ, w.currentManifest.completedChunks[i]? ≠ some true)
    (written : w.currentManifest.packBitfield = some packed) :
    ClearAck file (ackMessage (file.announcement pin fileName).totalChunks packed) := by
  have htotal := (SourceFile.announces_announcement sendable pin fileName).2
  have hmanifest : w.currentManifest.totalChunks.toNat = file.chunkCount := by
    rw [allotted.totalChunks, htotal]
  have hlength : packed.length = (file.chunkCount + 7) / 8 := by
    rw [TransferManifest.length_packBitfield written,
      TransferManifest.packedSize_of_le (hmanifest ▸ countable), hmanifest]
  have hclear : w.currentManifest.completedChunks = List.replicate file.chunkCount false := by
    refine List.eq_replicate_iff.mpr ⟨allotted.bits.trans htotal, fun bit hbit => ?_⟩
    obtain ⟨i, hi⟩ := List.getElem?_of_mem hbit
    cases bit with
    | false => rfl
    | true => exact (fresh i hi).elim
  refine ⟨rfl, fun _ => ?_, ?_⟩
  · rw [ackMessage, HandshakeAck.decode_encode, List.length_append, HandshakeAck.length_encode,
      Nat.add_sub_cancel_left, hlength]
    exact (congrArg (fun n => (n + 7) / 8) htotal).le
  · have hbits := TransferManifest.readBits_packBitfield
      (by rw [hclear, List.length_replicate, hmanifest]) (hmanifest ▸ countable) written
    rw [ackBits_ackMessage, ← hclear, ← hbits, ← allotted.totalChunks]

/-- What a step of a transfer answers. -/
theorem clearAck_of_step {outputDir : Path} {delivered : List (List UInt8)} {event : Event}
    {w w' : Endpoint} (sendable : file.Sendable) (countable : file.chunkCount ≤ 2 ^ 32 - 8)
    (receiver : Receiver pin outputDir w) (exclusive : Exclusive P w)
    (inv : Transferring P file pin fileName delivered w) (taken : Step P w event w') :
    ∀ frame ∈ sent w w', ClearAck file frame.2 := by
  have htask {hs : Handshake} {pc : HandshakePc} (found : w.taskAt event = some (.handshake hs pc))
      (other : pc ≠ .accepted) : hs = file.announcement pin fileName ∧
        Preparing hs w ∧ w.tasks = [.handshake hs pc] := by
    obtain ⟨index, ok, -, hread⟩ := index_of_taskAt found
    have hmem := List.mem_of_getElem? hread
    rcases inv.phase with hphase | hphase
    · rcases hphase.tasks with hempty | ⟨pc', hone, -⟩
      · rw [hempty] at hmem
        cases hmem
      · rw [hone] at hmem
        cases List.mem_singleton.mp hmem
        exact ⟨rfl, hphase, hone⟩
    · exact (other (hphase.tasks _ hmem).2).elim
  intro frame hframe
  have hanswer := answer_of_step receiver taken
  generalize sent w w' = frames at hframe hanswer
  cases hanswer with
  | silent => cases hframe
  | @acked hs pc packed found answering written =>
      obtain rfl := List.mem_singleton.mp hframe
      rcases answering with ⟨rfl, hlatched⟩ | rfl
      · obtain ⟨-, hpreparing, hone⟩ := htask found (by rintro ⟨⟩)
        exact (hlatched (hpreparing.unlatched (.inr hone))).elim
      · obtain ⟨rfl, hpreparing, hone⟩ := htask found (by rintro ⟨⟩)
        have hstage := exclusive.stage _ _ (hone ▸ List.mem_singleton_self _)
          (holds_of_inProgress rfl)
        exact clearAck_of_written sendable countable hstage.2.1 hpreparing.bits written
  | rejected found _ wrong =>
      obtain ⟨rfl, -⟩ := htask found (by rintro ⟨⟩)
      exact (wrong receiver.expectedPin.symm).elim

/-- In a transfer all that a receiver hands over are acknowledgements without a set bit. -/
theorem clearAck_of_run {outputDir : Path} {onProgress : Bool} {disk : List Path}
    {events : List Event} {w : Endpoint} (sendable : file.Sendable) (fitting : file.Fitting P)
    (run : (machine P (recvFile outputDir pin onProgress disk)).RunUnder AfterAck events w)
    (once : (deliveries events).Subperm (file.transmission P pin fileName)) :
    ∀ frame ∈ w.outbox, ClearAck file frame.2 := by
  induction run with
  | start =>
      rintro _ ⟨⟩
  | @snoc events w w' event prior ok taken ih =>
      have hstep := (step_cases (show step P event w = some w' from taken)).2
      rw [delivered_append] at once
      have hbefore := (List.sublist_append_left _ _).subperm.trans once
      obtain ⟨hintegrity, htransferring⟩ :=
        transfer_run sendable fitting.toSupported prior hbefore
      have hanswers := clearAck_of_step sendable fitting.countable (receiver_run prior)
        hintegrity.exclusive htransferring hstep
      obtain ⟨frames, hframes⟩ := Departure.outbox_prefix_of_step hstep
      rw [sent_of_outbox hframes.symm] at hanswers
      rw [← hframes]
      intro frame hframe
      rcases List.mem_append.mp hframe with hold | hnew
      · exact ih hbefore frame hold
      · exact hanswers frame hnew

/-! ## The sender -/

section Sender

variable {contents : List UInt8} {progress : Bool} {files : List Path} {start w : Endpoint}
  {events : List Event}

/-- A chunk is handed over after an acknowledgement has come. -/
theorem exists_acknowledgement {strategy : Strategy}
    (opened : sendFile fileName contents pin progress files = some start)
    (serving : (machine P start).RunUnder (fun w event => w.Serves strategy event) events w)
    (answering : (machine P start).RunUnder (fun _ event => event.IsAnswering) events w)
    {data : List UInt8} {message : ChunkWireHeader × List UInt8}
    (handed : data ∈ w.outbox.map Prod.snd) (carried : chunkIn data = some message) :
    ∃ ack ∈ deliveries events, messageKind ack = some .handshakeAck := by
  have hframes := (transmitting_run opened serving).2.frames
  rcases List.mem_append.mp (hframes.mem_iff.mp handed) with hopening | htask
  · have hfirst : data = (SetUp.ofFile fileName contents pin files).args.handshake.encode := by
      rw [SetUp.opening.eq_def] at hopening
      split at hopening
      · cases hopening
      · cases hopening
      · exact List.mem_singleton.mp hopening
    have hnone := handshakeIn_of_chunkIn carried
    rw [hfirst, handshakeIn_encode (Handshake.length_nameField fileName)] at hnone
    cases hnone
  · obtain ⟨task, hmem, htransmitted⟩ := List.mem_filterMap.mp htask
    have hjobs : w.jobs ≠ [] := by
      cases task with
      | sendChunk job pc => exact List.ne_nil_of_mem (List.mem_filterMap.mpr ⟨_, hmem, rfl⟩)
      | handshake _ _ | recvChunk _ _ _ => cases htransmitted
    obtain ⟨ack, hfirst, hkind⟩ := (gate_run opened answering).gate (.inr hjobs)
    exact ⟨ack, List.mem_of_find?_eq_some hfirst, hkind⟩

/-- What arrives are acknowledgements without a set bit. -/
def Clearing (file : SourceFile) (_ : Endpoint) (event : Event) : Prop :=
  ∀ data ∈ event.delivered?, ClearAck file data

/-- Nothing tells the sender that its pin is wrong. -/
theorem unrejected_of_run (opened : sendFile fileName contents pin progress files = some start)
    (run : (machine P start).RunUnder (Clearing file) events w) :
    w.handshakeRejected = false := by
  apply run.invariant (motive := fun w => w.handshakeRejected = false)
  · rw [sendFile] at opened
    split at opened
    · cases opened
    · cases opened
      rfl
  intro w event w' hbefore clearing taken
  have hstep := (step_cases (show step P event w = some w' from taken)).2
  cases event with
  | deliver data =>
      obtain ⟨-, rfl⟩ := deliver_of_step (P := P) taken
      rw [handleRecv_of_acknowledgement (clearing data rfl).kind, processHandshakeACk]
      split
      · exact hbefore
      split
      · exact hbefore
      · dsimp only
        split <;> exact hbefore
  | network =>
      cases hstep
      exact hbefore
  | task _ _ | main _ _ =>
      exact (answerFrame_of_step hstep rfl (by rintro ⟨⟩)).rejected.trans hbefore

/-- A sender that is done has skipped no chunk. -/
theorem resumeBitfield_of_run (opened : sendFile fileName contents pin progress files = some start)
    (run : (machine P start).RunUnder (Clearing file) events w)
    (returned : w.main = .returned) :
    w.resumeBitfield = List.replicate file.chunkCount false := by
  have hgate := gate_run opened (run.mono fun _ _ clearing data hdata =>
    (clearing data hdata).isAnswer)
  have hmain := hgate.sender.main
  rw [returned] at hmain
  have hanswered := hgate.answered
  cases hfirst : firstAnswer events with
  | none =>
      rw [hfirst] at hanswered
      cases hanswered.1.symm.trans hmain.2.1
  | some data =>
      rw [hfirst] at hanswered
      have hclear : ClearAck file data := by
        have hmem : data ∈ deliveries events := List.mem_of_find?_eq_some hfirst
        have hall : ∀ data ∈ deliveries events, ClearAck file data := by
          refine run.induct (motive := fun events _ => ∀ data ∈ deliveries events,
            ClearAck file data) (by rintro _ ⟨⟩) ?_
          intro events _ event _ _ ih clearing _ data hdata
          rw [delivered_append] at hdata
          rcases List.mem_append.mp hdata with hold | hnew
          · exact ih data hold
          · exact clearing data (Option.mem_toList.mp hnew)
        exact hall data hmem
      rcases hanswered.2 with ⟨-, hbits⟩ | ⟨hkind, -⟩
      · exact Option.some.inj (hbits.symm.trans hclear.bits)
      · cases hkind.symm.trans hclear.kind

end Sender

end Endpoint

/-! ## The two sides together -/

namespace Stack

variable {α : Type} {P : Platform} {file : SourceFile} {pin : UInt32} {fileName : List UInt8}

/-- The left side sends, the right side receives. -/
def roles (sender receiver : Endpoint) : Side → Endpoint
  | .left => sender
  | .right => receiver

/-- What each side keeps to, because of the other one. -/
def Permits (file : SourceFile) : Side → Endpoint → Event → Prop
  | .left => fun w event => w.Serves file.strategy event ∧ w.Clearing file event
  | .right => Endpoint.AfterAck

/-- All is done: `sendFile` has returned and no task of it has failed, its streams are drained, and
no task of the receiver has a step left. -/
structure Finished (P : Platform) (s : Stack α) : Prop where
  returned : (s.sessions .left).main = .returned
  sent : ∀ task ∈ (s.sessions .left).tasks, ∀ job ∈ task.job?, task = .sendChunk job .sent
  drained : ∀ stream, s.channel.Drained .left stream
  quiescent : ∀ index, Endpoint.step P (.task index true) (s.sessions .right) = none

section Transfer

variable {progress onProgress : Bool} {files disk : List Path} {outputDir : Path}
  {remoteAddr : Side → Option α} {start : Endpoint} {waiting : Side → List Payload} {s : Stack α}

/-- The runs of the two sessions. -/
theorem Composed.runs
    (composed : Composed P (roles start (Endpoint.recvFile outputDir pin onProgress disk))
      remoteAddr (Permits file) waiting s) :
    ∃ sends events,
      (Endpoint.machine P start).RunUnder (fun w event => w.Serves file.strategy event) sends
          (s.sessions .left) ∧
        (Endpoint.machine P start).RunUnder (Endpoint.Clearing file) sends (s.sessions .left) ∧
        (s.channel.got .left).map Prod.snd = deliveries sends ++ (waiting .left).map Prod.snd ∧
        (Endpoint.machine P (Endpoint.recvFile outputDir pin onProgress disk)).RunUnder
          Endpoint.AfterAck events (s.sessions .right) ∧
        (s.channel.got .right).map Prod.snd =
          deliveries events ++ (waiting .right).map Prod.snd := by
  obtain ⟨sends, hsender, hgot⟩ := composed.sessions .left
  obtain ⟨events, hreceiver, hgot'⟩ := composed.sessions .right
  exact ⟨sends, events, hsender.mono fun _ _ ok => ok.1, hsender.mono fun _ _ ok => ok.2, hgot,
    hreceiver, hgot'⟩

/-- What the channel has carried between the two sessions. -/
structure Carried (P : Platform) (file : SourceFile) (pin : UInt32) (fileName : List UInt8)
    (s : Stack α) : Prop where
  handed : ∀ side, (s.channel.sent side).map Prod.snd = (s.sessions side).outbox.map Prod.snd
  sizable : ∀ side, ∀ payload ∈ s.channel.sent side, Sizable payload.2
  part : ∀ side, ((s.channel.got side.other).map Prod.snd).Subperm
    ((s.sessions side).outbox.map Prod.snd)
  once : ((s.channel.got .right).map Prod.snd).Subperm (file.transmission P pin fileName)

theorem carried_of_composed (sendable : file.Sendable) (fitting : file.Fitting P)
    (opened : Endpoint.sendFile fileName file.contents pin progress files = some start)
    (composed : Composed P (roles start (Endpoint.recvFile outputDir pin onProgress disk))
      remoteAddr (Permits file) waiting s) (few : Few s.channel) :
    Carried P file pin fileName s := by
  obtain ⟨sends, events, hserving, -, -, hreceiving, -⟩ := composed.runs
  obtain ⟨calls, hchannel⟩ := composed.channel
  have hhanded (side : Side) : (s.channel.sent side).map Prod.snd =
      (s.sessions side).outbox.map Prod.snd := by
    rw [composed.sent, List.map_map]
    rfl
  have hsome := Endpoint.outbox_subperm sendable.nonempty opened hserving
  have hsizable : ∀ side, ∀ payload ∈ s.channel.sent side, Sizable payload.2 := by
    intro side payload hpayload
    have hmem : payload.2 ∈ (s.sessions side).outbox.map Prod.snd := by
      rw [← hhanded]
      exact List.mem_map.mpr ⟨payload, hpayload, rfl⟩
    cases side with
    | left => exact SourceFile.sizable_of_mem fitting (hsome.subset hmem)
    | right =>
        obtain ⟨frame, hframe, hdata⟩ := List.mem_map.mp hmem
        rw [← hdata]
        exact Endpoint.sizable_of_receiver hreceiving frame hframe
  have hpart (side : Side) : ((s.channel.got side.other).map Prod.snd).Subperm
      ((s.sessions side).outbox.map Prod.snd) := by
    rw [← hhanded]
    exact subperm_of_prefix fun stream =>
      (Channel.reading_of_run (fun _ => rfl) hchannel hsizable few side stream).front
  exact ⟨hhanded, hsizable, hpart, (hpart .left).trans hsome⟩

/-- What the receiver has handed over. -/
theorem clearAck_of_composed (sendable : file.Sendable) (fitting : file.Fitting P)
    (opened : Endpoint.sendFile fileName file.contents pin progress files = some start)
    (composed : Composed P (roles start (Endpoint.recvFile outputDir pin onProgress disk))
      remoteAddr (Permits file) waiting s) (few : Few s.channel) :
    ∀ data ∈ (s.sessions .right).outbox.map Prod.snd, Endpoint.ClearAck file data := by
  obtain ⟨sends, events, -, -, -, hreceiving, hgot⟩ := composed.runs
  have honce := (carried_of_composed sendable fitting opened composed few).once
  rw [hgot] at honce
  intro data hdata
  obtain ⟨frame, hframe, rfl⟩ := List.mem_map.mp hdata
  exact Endpoint.clearAck_of_run sendable fitting hreceiving
    ((List.sublist_append_left _ _).subperm.trans honce) frame hframe

/-- Each side keeps to what the other one relies on. -/
theorem permits_of_composed (sendable : file.Sendable) (fitting : file.Fitting P)
    (opened : Endpoint.sendFile fileName file.contents pin progress files = some start)
    {side : Side} {event : Event}
    (composed : Composed P (roles start (Endpoint.recvFile outputDir pin onProgress disk))
      remoteAddr (Permits file) waiting s) (few : Few s.channel)
    (waits : ∀ data ∈ event.delivered?, data ∈ (waiting side).map Prod.snd)
    (detected : ∀ chosen ∈ event.strategy?, chosen = file.strategy) :
    Permits file side (s.sessions side) event := by
  have hcarried := carried_of_composed sendable fitting opened composed few
  have hclear := clearAck_of_composed sendable fitting opened composed few
  obtain ⟨sends, events, hserving, hclearing, hgot, -, hgot'⟩ := composed.runs
  have hanswering : (Endpoint.machine P start).RunUnder (fun _ event => event.IsAnswering) sends
      (s.sessions .left) :=
    hclearing.mono fun _ _ clearing data hdata => (clearing data hdata).isAnswer
  cases side with
  | left =>
      refine ⟨⟨?_, detected⟩, fun data hdata => ?_⟩
      · rw [← Option.not_isSome_iff_eq_none]
        intro hsome
        obtain ⟨hs, hentering⟩ := Option.isSome_iff_exists.mp hsome
        obtain ⟨index, ok, -, hread⟩ :=
          Endpoint.index_of_taskAt (Endpoint.mem_entering.mp hentering)
        obtain ⟨job, pc, htask⟩ := (Endpoint.gate_run opened hanswering).own _
          (List.mem_of_getElem? hread)
        cases htask
      · apply hclear data
        apply (hcarried.part .right).subset
        show data ∈ (s.channel.got .left).map Prod.snd
        rw [hgot]
        exact List.mem_append_right _ (waits data hdata)
  | right =>
      intro message hmessage
      cases event with
      | deliver data =>
          -- a chunk was handed over, so an acknowledgement had come, which was sent before
          have hdata : data ∈ (s.sessions .left).outbox.map Prod.snd := by
            apply (hcarried.part .left).subset
            show data ∈ (s.channel.got .right).map Prod.snd
            rw [hgot']
            exact List.mem_append_right _ (waits data rfl)
          obtain ⟨ack, hack, -⟩ :=
            Endpoint.exists_acknowledgement opened hserving hanswering hdata hmessage
          have hsent : ack ∈ (s.sessions .right).outbox.map Prod.snd := by
            apply (hcarried.part .right).subset
            show ack ∈ (s.channel.got .left).map Prod.snd
            rw [hgot]
            exact List.mem_append_left _ hack
          obtain ⟨frame, hframe, hsame⟩ := List.mem_map.mp hsent
          refine ⟨frame, hframe, ?_⟩
          rw [Endpoint.IsAck, hsame]
          exact (hclear ack hsent).type
      | network | task _ _ | main _ _ => cases hmessage

/-- A session sends a file and another one receives it, with the right pin, over a network that
forges nothing. As long as no stream has used half of its numbers, no access of either side goes
wrong, the sender is not turned away, no chunk is dropped, and if the receiver declares the transfer
complete, it has the file. When both sides are done, it has declared it. -/
theorem arrives_of_run {events : List (Side × StackEvent α)} (sendable : file.Sendable)
    (fitting : file.Fitting P)
    (opened : Endpoint.sendFile fileName file.contents pin progress files = some start)
    (run : (machine P (roles start (Endpoint.recvFile outputDir pin onProgress disk))
      remoteAddr).RunUnder (Detects file.strategy) events s) (few : Few s.channel) :
    (∀ side, (s.sessions side).fault = .none ∧ (s.channel.ends side).fault = false) ∧
      (s.sessions .left).handshakeRejected = false ∧
      Endpoint.Correct file (s.sessions .right) ∧
      (Finished P s → (s.sessions .right).transComplete = true) := by
  have hfresh : ∀ side,
      (roles start (Endpoint.recvFile outputDir pin onProgress disk) side).outbox = [] := by
    rintro (_ | _)
    · exact Endpoint.outbox_of_sendFile opened
    · rfl
  have hcomposed : Composed P (roles start (Endpoint.recvFile outputDir pin onProgress disk))
      remoteAddr (Permits file) (fun _ => []) s :=
    composed_of_run hfresh (fun waiting s side event composed few waits detected =>
      permits_of_composed sendable fitting opened composed few waits detected) run few
  have hcarried := carried_of_composed sendable fitting opened hcomposed few
  obtain ⟨calls, hchannel⟩ := hcomposed.channel
  obtain ⟨sends, received, hserving, hclearing, -, hreceiving, hgot⟩ := hcomposed.runs
  rw [List.map_nil, List.append_nil] at hgot
  have hanswering : (Endpoint.machine P start).RunUnder (fun _ event => event.IsAnswering) sends
      (s.sessions .left) :=
    hclearing.mono fun _ _ clearing data hdata => (clearing data hdata).isAnswer
  have honce := hcarried.once
  rw [hgot] at honce
  have hcorrect := Endpoint.correct_of_transfer sendable fitting.toSupported hreceiving honce
  have hunrejected := Endpoint.unrejected_of_run opened hclearing
  refine ⟨?_, hunrejected, hcorrect, fun finished => ?_⟩
  · intro side
    refine ⟨?_, Channel.fault_eq_false (fun _ => rfl) hchannel hcarried.sizable few side⟩
    cases side with
    | left => exact (Endpoint.gate_run opened hanswering).live
    | right => exact hcorrect.defined
  · have hbits := Endpoint.resumeBitfield_of_run opened hclearing finished.returned
    have hserved : Endpoint.Served (s.sessions .left) := by
      refine ⟨finished.returned, hunrejected, fun i => ?_, finished.sent⟩
      rw [hbits, List.getD_eq_getElem?_getD, List.getElem?_replicate]
      split <;> rfl
    have hall : (deliveries received).Perm (file.transmission P pin fileName) := by
      rw [← hgot]
      have hdrained : ((s.channel.got .right).map Prod.snd).Perm
          ((s.channel.sent .left).map Prod.snd) :=
        perm_of_onStream fun stream => Channel.onStream_got_eq (fun _ => rfl) hchannel
          hcarried.sizable few (finished.drained stream)
      rw [hcarried.handed] at hdrained
      exact hdrained.trans (Endpoint.outbox_perm sendable.nonempty opened hserving hserved)
    exact Endpoint.transComplete_of_quiescent sendable fitting.toSupported hreceiving hall
      finished.quiescent

end Transfer

/-! ## One transfer -/

/-- A segment of the first stream. -/
def segment (cmd : UInt8) (wnd : UInt16) (ts sn una : UInt32) (data : List UInt8) : List UInt8 :=
  Ikcp.Packet.encode
    { conv := 0x11223344, cmd := cmd, frg := 0, wnd := wnd, ts := ts, sn := sn, una := una,
      data := data }

/-- A network thread goes through its loop, as far as some steps lead. -/
def round (side : Side) (now : UInt32) (arriving : List (List UInt8)) (steps : ℕ) :
    List (Side × StackEvent ℕ) :=
  (side, .network (.clock now)) ::
    (arriving.map fun data => (side, .network (.recvfrom (some (0, data))))) ++
    (side, .network (.recvfrom none)) :: List.replicate steps (side, .network .advance)

/-- The threads of a session take some steps. -/
def own (side : Side) (events : List Event) : List (Side × StackEvent ℕ) :=
  events.map fun event => (side, .session event)

/-- A file of one byte is announced, the announcement is acknowledged, and the chunk follows. -/
def letter : List (Side × StackEvent ℕ) :=
  round .left 0 [] 10 ++ own .left (KnownAnswers.mainSteps 2) ++
    round .right 5 [segment Ikcp.cmdPush 4096 0 0 0
      (frame (KnownAnswers.handshakeMessage 123456 1 1))] 13 ++
    own .right (KnownAnswers.steps 0 11) ++
    round .left 10 [segment Ikcp.cmdAck 4095 0 0 1 [],
      segment Ikcp.cmdPush 4096 5 0 1 (frame (Endpoint.ackMessage 1 [0]))] 7 ++
    own .left [.network] ++ List.replicate 6 (.left, .network .advance) ++
    own .left (KnownAnswers.mainSteps 4 ++ KnownAnswers.steps 0 5 ++ KnownAnswers.mainSteps 3) ++
    round .right 20 [segment Ikcp.cmdPush 4096 10 1 1 (frame KnownAnswers.chunkMessage)] 13 ++
    own .right (KnownAnswers.steps 1 9) ++
    round .left 30 [segment Ikcp.cmdAck 4095 10 1 2 []] 10

/-- The sender of that file and the receiver of an empty directory. -/
abbrev ofLetterA : Machine (Stack ℕ) (Side × StackEvent ℕ) :=
  machine KnownAnswers.platform (roles (KnownAnswers.sender 65) KnownAnswers.receiver)
    fun side => if side = .left then some 1 else none

theorem finished_letter : Finished KnownAnswers.platform (ofLetterA.reached letter) := by
  have hend : let s := ofLetterA.reached letter
      ((s.sessions .left).main = .returned ∧ (s.channel.ends .right).pc = .begin ∧
        (s.sessions .right).tasks.length = 2) ∧
      (∀ task ∈ (s.sessions .left).tasks, ∀ job ∈ task.job?, task = .sendChunk job .sent) ∧
      (∀ stream, ((s.channel.ends .left).kcps stream).waitsnd = 0 ∧
        ((s.channel.ends .right).kcps stream).rcvQueue = []) ∧
      ∀ index < 2,
        Endpoint.step KnownAnswers.platform (.task index true) (s.sessions .right) = none := by
    decide +kernel
  generalize ofLetterA.reached letter = s at hend
  obtain ⟨⟨hreturned, hpc, htasks⟩, hsent, hdrained, hquiescent⟩ := hend
  refine ⟨hreturned, hsent, fun stream => ⟨(hdrained stream).1, (hdrained stream).2, ?_⟩, ?_⟩
  · intro rest
    rw [Side.other, hpc]
    rintro ⟨⟩
  · intro index
    by_cases hindex : index < 2
    · exact hquiescent index hindex
    · rw [Endpoint.step, List.getElem?_eq_none (htasks ▸ not_lt.mp hindex)]
      split <;> rfl

theorem arrives_of_letter :
    let s := ofLetterA.reached letter
    (∀ side, (s.sessions side).fault = .none ∧ (s.channel.ends side).fault = false) ∧
      Endpoint.Correct Endpoint.letterA (s.sessions .right) ∧
      (s.sessions .right).transComplete = true := by
  have hfitting : Endpoint.letterA.Fitting KnownAnswers.platform :=
    { lawful := KnownAnswers.ssl_lawful
      inverts := SmartCompressor.inverts_none _ _
      bounded := SmartCompressor.bounded_none _ (by decide)
      countable := by decide
      framed := fun size hsize => by
        have hsmall : Chunker.kDefaultChunkSize < 2 ^ 30 := by decide
        show ChunkWireHeader.size + size + 20 < 2 ^ 31
        rw [ChunkWireHeader.size]
        omega }
  have hrun : ofLetterA.RunUnder (Detects Endpoint.letterA.strategy) letter
      (ofLetterA.reached letter) := Machine.runUnder_reached (by decide +kernel)
  obtain ⟨hdefined, -, hcorrect, hcomplete⟩ := arrives_of_run
    (show Endpoint.letterA.Sendable from ⟨by decide, by decide⟩) hfitting
    (show Endpoint.sendFile [97] Endpoint.letterA.contents 123456 false [] =
      some (KnownAnswers.sender 65) from rfl) hrun (by rintro (_ | _) <;> decide +kernel)
  exact ⟨hdefined, hcorrect, hcomplete finished_letter⟩

end Stack

end Sxaint.Net
