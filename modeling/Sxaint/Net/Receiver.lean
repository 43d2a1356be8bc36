/-
# Runs of a receiver

What every run of a session started by `recvFile` keeps, whatever messages arrive
and however the tasks interleave: the pin and the directory never change, no
chunk task of a sender exists, and a handshake is past its lock section only if
its pin was right. The frame lemmas state once which members the tasks leave
alone.
-/

import Sxaint.Machine.Pool
import Sxaint.Net.Steps

namespace Sxaint.Net

open Sxaint.Core Transition

namespace Endpoint

variable {P : Platform}

/-- The members that the tasks of a receiver never assign. -/
structure TaskFrame (w v : Endpoint) : Prop where
  tasks : v.tasks = w.tasks
  main : v.main = w.main
  net : v.net = w.net
  expectedPin : v.expectedPin = w.expectedPin
  outputDir : v.outputDir = w.outputDir
  onProgress : v.onProgress = w.onProgress
  handshakeRejected : v.handshakeRejected = w.handshakeRejected
  handshakeAcked : v.handshakeAcked = w.handshakeAcked
  resumeBitfield : v.resumeBitfield = w.resumeBitfield
  chunksSent : v.chunksSent = w.chunksSent
  encryptCalls : v.encryptCalls = w.encryptCalls

theorem taskFrame_of_handshakeStep {hs : Handshake} {w v : Endpoint} {pc next : HandshakePc}
    (taken : HandshakeStep P hs w pc next v) : TaskFrame w v := by
  cases taken <;> constructor <;> rfl

/-- The members that `processChunk` never assigns. Of the mapping and the
completion bits only the contents change. -/
structure ChunkFrame (w v : Endpoint) : Prop extends TaskFrame w v where
  aesKey : v.aesKey = w.aesKey
  currentFilename : v.currentFilename = w.currentFilename
  writeView : v.writeView = w.writeView
  expectedChunks : v.expectedChunks = w.expectedChunks
  disk : v.disk = w.disk
  outbox : v.outbox = w.outbox
  nextSerial : v.nextSerial = w.nextSerial
  totalChunks : v.currentManifest.totalChunks = w.currentManifest.totalChunks
  fileSize : v.currentManifest.fileSize = w.currentManifest.fileSize
  bitCount : v.currentManifest.completedChunks.length = w.currentManifest.completedChunks.length
  serial : v.fileMapper.map Mapping.serial = w.fileMapper.map Mapping.serial
  viewSize : v.fileMapper.map (·.bytes.length) = w.fileMapper.map (·.bytes.length)
  object : v.metrics.map (·.object) = w.metrics.map (·.object)

/-- Writing through a live span changes contents only. -/
theorem map_serial_write {span : Span} {contents : List UInt8} {fileMapper : Option Mapping} :
    (span.write contents fileMapper).map Mapping.serial = fileMapper.map Mapping.serial := by
  rw [Span.write]
  split
  · rfl
  · cases fileMapper <;> rfl

theorem map_size_write {span : Span} {held contents : List UInt8}
    {fileMapper : Option Mapping} (live : span.read fileMapper = some held)
    (same : contents.length = held.length) :
    (span.write contents fileMapper).map (·.bytes.length) =
      fileMapper.map (·.bytes.length) := by
  rw [Span.write]
  unfold Span.read at live
  split
  · rfl
  · rename_i hsize
    rw [if_neg hsize] at live
    cases fileMapper with
    | none => rfl
    | some view =>
        simp only at live
        split at live
        · rename_i hinside
          obtain rfl := Option.some.inj live
          rw [Buffer.length_block_of_le hinside.2] at same
          have hfits : span.offset + contents.length ≤ view.bytes.length := by omega
          simp [Buffer.length_overwrite hfits]
        · cases live

theorem chunkFrame_of_chunkStep {header : ChunkWireHeader} {payload : List UInt8}
    {w v : Endpoint} {pc next : ChunkPc} (taken : ChunkStep P header payload w pc next v) :
    ChunkFrame w v := by
  cases taken with
  | @written target plain held next live result =>
      have hsame := SmartCompressor.length_decompress P.codecs plain held
        (Strategy.ofByte header.compressStra)
      constructor <;> first
        | rfl
        | exact map_serial_write
        | exact map_size_write live hsame
        | (constructor <;> rfl)
  | marked inside => constructor <;> first | rfl | exact List.length_set | (constructor <;> rfl)
  | metered =>
      constructor <;> first | rfl | (constructor <;> rfl) | (cases w.metrics <;> rfl)
  | reported =>
      rw [reportProgress_eq]
      constructor <;> first | rfl | (constructor <;> rfl)
  | _ => constructor <;> first | rfl | (constructor <;> rfl)

/-- A handshake is accepted by a step that looks at it while none is in force. -/
theorem HandshakeStep.accepted_or_admitted {hs : Handshake} {w v : Endpoint}
    {pc next : HandshakePc} (taken : HandshakeStep P hs w pc next v)
    (accepted : next.inProgress = true ∨ next = .accepted) :
    (pc.inProgress = true ∨ pc = .accepted) ∨
      pc = .enter ∧ w.expectedChunks = 0 ∧ hs.pin = w.expectedPin := by
  cases taken with
  | admitted unlatched right => exact .inr ⟨rfl, unlatched, right⟩
  | searched searching =>
      refine .inl (.inl ?_)
      rcases searching with rfl | ⟨_, _, _, _, rfl⟩ <;> rfl
  | packFault _ _ | unterminated _ => exact .inl accepted
  | resumed _ _ | rejected _ _ | unmapped | threw _ => rcases accepted with h | h <;> cases h
  | _ => exact .inl (.inl rfl)

/-- What holds of every task of a receiver with a given pin. -/
def ReceiverTask (pin : UInt32) : Task → Prop
  | .handshake hs pc => pc.inProgress = true ∨ pc = .accepted → hs.pin = pin
  | .recvChunk _ _ _ => True
  | .sendChunk _ _ => False

/-- The invariant of every run of a receiver. -/
structure Receiver (pin : UInt32) (outputDir : Path) (w : Endpoint) : Prop where
  expectedPin : w.expectedPin = pin
  outputDir : w.outputDir = outputDir
  main : w.main = .receiving ∨ w.main = .returned
  tasks : ∀ task ∈ w.tasks, ReceiverTask pin task

theorem receiver_recvFile (outputDir : Path) (pin : UInt32) (onProgress : Bool)
    (disk : List Path) : Receiver pin outputDir (recvFile outputDir pin onProgress disk) :=
  ⟨rfl, rfl, .inl rfl, by simp [recvFile]⟩

/-- The one step of the thread of `recvFile` is to return, on completion. -/
theorem returned_of_mainStep {strategy : Strategy} {pc : MainPc} {w w' : Endpoint}
    (main : pc = .receiving ∨ pc = .returned) (taken : MainStep P strategy w pc w') :
    w.transComplete = true ∧ w' = { w with main := .returned } := by
  rcases main with rfl | rfl
  · cases taken with
    | returned done =>
        rcases done with h | ⟨-, hcomplete⟩
        · cases h
        · exact ⟨hcomplete, rfl⟩
  · cases taken with
    | returned done => rcases done with h | ⟨h, -⟩ <;> cases h

/-- No step of any thread takes a receiver out of its invariant. -/
theorem receiver_step {pin : UInt32} {outputDir : Path} {event : Event} {w w' : Endpoint}
    (inv : Receiver pin outputDir w) (taken : Step P w event w') :
    Receiver pin outputDir w' := by
  obtain ⟨hpin, hdir, hmain, htasks⟩ := inv
  cases taken with
  | deliver idle received =>
      cases received with
      | handshake carried =>
          exact ⟨hpin, hdir, hmain, Pool.forall_submit htasks (by simp [ReceiverTask,
            HandshakePc.inProgress])⟩
      | chunk other carried => exact ⟨hpin, hdir, hmain, Pool.forall_submit htasks trivial⟩
      | _ => exact ⟨hpin, hdir, hmain, htasks⟩
  | network => exact ⟨hpin, hdir, hmain, htasks⟩
  | @handshake index ok hs pc next v found taken =>
      have hframe := taskFrame_of_handshakeStep taken
      have hold : ReceiverTask pin (.handshake hs pc) :=
        htasks _ (List.mem_of_getElem? found)
      refine ⟨hframe.expectedPin.trans hpin, hframe.outputDir.trans hdir, ?_, ?_⟩
      · simpa only [hframe.main] using hmain
      · simp only [hframe.tasks]
        refine Pool.forall_set htasks index fun accepted => ?_
        rcases taken.accepted_or_admitted accepted with hbefore | ⟨-, -, hright⟩
        · exact hold hbefore
        · exact hright.trans hpin
  | recvChunk found taken =>
      have hframe := chunkFrame_of_chunkStep taken
      refine ⟨hframe.expectedPin.trans hpin, hframe.outputDir.trans hdir, ?_, ?_⟩
      · simpa only [hframe.main] using hmain
      · simp only [hframe.tasks]
        exact Pool.forall_set htasks _ trivial
  | sendChunk found taken => exact (htasks _ (List.mem_of_getElem? found)).elim
  | main taken =>
      obtain ⟨-, rfl⟩ := returned_of_mainStep hmain taken
      exact ⟨hpin, hdir, .inr rfl, htasks⟩

/-- Every run of a receiver, restricted or not, keeps the invariant. -/
theorem receiver_run {outputDir : Path} {pin : UInt32} {onProgress : Bool} {disk : List Path}
    {allowed : Endpoint → Event → Prop} {events : List Event} {w : Endpoint}
    (run : (machine P (recvFile outputDir pin onProgress disk)).RunUnder allowed events w) :
    Receiver pin outputDir w :=
  run.invariant (receiver_recvFile outputDir pin onProgress disk)
    fun state event next inv _ taken =>
      receiver_step inv (step_cases (show step P event state = some next from taken)).2

/-! ## Answers -/

/-- The frames a step hands to the transport. -/
def sent (w w' : Endpoint) : List (UInt32 × List UInt8) :=
  w'.outbox.drop w.outbox.length

/-- A frame that is an acknowledgement. -/
def IsAck (frame : UInt32 × List UInt8) : Prop :=
  frame.2.head? = some MessageType.handshakeAck.toByte

instance (frame : UInt32 × List UInt8) : Decidable (IsAck frame) :=
  inferInstanceAs (Decidable (_ = _))

/-- A handshake that a task of a receiver has accepted has the right pin. -/
theorem handshake_of_taskAt {pin : UInt32} {outputDir : Path} {w : Endpoint} {event : Event}
    {hs : Handshake} {pc : HandshakePc} (inv : Receiver pin outputDir w)
    (found : w.taskAt event = some (.handshake hs pc))
    (accepted : pc.inProgress = true ∨ pc = .accepted) : hs.pin = pin := by
  obtain ⟨index, ok, rfl, hread⟩ := index_of_taskAt found
  exact inv.tasks _ (List.mem_of_getElem? hread) accepted

/-- What a step of a receiver hands to the transport. -/
inductive Answer (w : Endpoint) (event : Event) : List (UInt32 × List UInt8) → Prop
  | silent : Answer w event []
  | acked {hs : Handshake} {pc : HandshakePc} {packed : List UInt8}
      (found : w.taskAt event = some (.handshake hs pc))
      (answering : pc = .enter ∧ w.expectedChunks ≠ 0 ∨ pc = .acknowledge)
      (written : w.currentManifest.packBitfield = some packed) :
      Answer w event [(0, ackMessage hs.totalChunks packed)]
  | rejected {hs : Handshake} (found : w.taskAt event = some (.handshake hs .enter))
      (unlatched : w.expectedChunks = 0) (wrong : hs.pin ≠ w.expectedPin) :
      Answer w event [(0, handshakeRejectMessage)]

theorem sent_of_outbox {w w' : Endpoint} {frames : List (UInt32 × List UInt8)}
    (same : w'.outbox = w.outbox ++ frames) : sent w w' = frames := by
  rw [sent, same, List.drop_left]

/-- Only handshake tasks send, one answer at a time. -/
theorem answer_of_step {pin : UInt32} {outputDir : Path} {event : Event} {w w' : Endpoint}
    (inv : Receiver pin outputDir w) (taken : Step P w event w') :
    Answer w event (sent w w') := by
  have hsilent : w'.outbox = w.outbox → Answer w event (sent w w') := fun same => by
    have hnone : w'.outbox = w.outbox ++ [] := by simpa using same
    rw [sent_of_outbox hnone]
    exact .silent
  cases taken with
  | deliver idle received => cases received <;> exact hsilent rfl
  | network => exact hsilent rfl
  | @handshake index ok hs pc next v found taken =>
      cases taken with
      | resumed latched written =>
          rw [sent_of_outbox rfl]
          exact .acked found (.inl ⟨rfl, latched⟩) written
      | acknowledged written =>
          rw [sent_of_outbox rfl]
          exact .acked found (.inr rfl) written
      | rejected unlatched wrong =>
          rw [sent_of_outbox rfl]
          exact .rejected found unlatched wrong
      | _ => exact hsilent rfl
  | recvChunk found taken => exact hsilent (chunkFrame_of_chunkStep taken).outbox
  | sendChunk found taken => exact (inv.tasks _ (List.mem_of_getElem? found)).elim
  | main taken =>
      obtain ⟨-, rfl⟩ := returned_of_mainStep inv.main taken
      exact hsilent rfl

end Endpoint

end Sxaint.Net
