/-
# What one step can do

The case analyses of the step functions, each made once. A step of a task is one
of the named cases below, with the guard under which it is taken and the endpoint
it leaves; every invariant is then proved by going through these cases.
-/

import Sxaint.Net.Endpoint

namespace Sxaint.Net

open Sxaint.Core Transition

/-- The handshake was accepted and its initialisation has neither finished nor
thrown. -/
def HandshakePc.inProgress : HandshakePc → Bool
  | .enter => false
  | .answered => false
  | .accepted => false
  | .threw => false
  | _ => true

/-- The kind of a message. -/
def messageKind (data : List UInt8) : Option MessageType :=
  data.head?.bind MessageType.ofByte

/-- A message with an acknowledgement has the bits that it announces, or is too short to
announce any. -/
def CarriesBits (data : List UInt8) : Prop :=
  HandshakeAck.size ≤ data.length →
    ((HandshakeAck.decode data).totalChunks.toNat + 7) / 8 ≤ data.length - HandshakeAck.size

instance (data : List UInt8) : Decidable (CarriesBits data) :=
  inferInstanceAs (Decidable (_ → _))

/-- Where an exception can leave the session as it was. -/
def HandshakePc.canThrow : HandshakePc → Bool
  | .convert => true
  | .rename _ _ _ _ => true
  | .preallocate _ => true
  | _ => false

/-- The chunk has not been marked as complete. -/
def ChunkPc.beforeMark : ChunkPc → Bool
  | .enter => true
  | .decrypt _ => true
  | .decompress _ _ => true
  | .check _ => true
  | .mark => true
  | _ => false

namespace Endpoint

variable (P : Platform)

/-- The steps of `processHandshake`. -/
inductive HandshakeStep (hs : Handshake) (w : Endpoint) :
    HandshakePc → HandshakePc → Endpoint → Prop
  | /-- A handshake is in force: answer with the bits of the manifest. -/
    resumed {packed : List UInt8} (latched : w.expectedChunks ≠ 0)
      (written : w.currentManifest.packBitfield = some packed) :
      HandshakeStep hs w .enter .answered (w.sendChunk (ackMessage hs.totalChunks packed) 0)
  | /-- No handshake is in force and the pin is wrong. -/
    rejected (unlatched : w.expectedChunks = 0) (wrong : hs.pin ≠ w.expectedPin) :
      HandshakeStep hs w .enter .answered (w.sendChunk handshakeRejectMessage 0)
  | /-- No handshake is in force and the pin is right. -/
    admitted (unlatched : w.expectedChunks = 0) (right : hs.pin = w.expectedPin) :
      HandshakeStep hs w .enter .prepare { w with expectedChunks := hs.totalChunks }
  | prepared {name : List UInt8} (terminated : hs.fileNameText = some name) :
      HandshakeStep hs w .prepare .convert
        { w with
          aesKey := Crypto.deriveKey P.ssl w.expectedPin
          currentFilename := name
          metrics := some { object := w.nextSerial, totalBytes := hs.fileSize }
          nextSerial := w.nextSerial + 1 }
  | /-- The name field has no end; the key was assigned already. -/
    unterminated (endless : hs.fileNameText = none) :
      HandshakeStep hs w .prepare .prepare
        { w with aesKey := Crypto.deriveKey P.ssl w.expectedPin, fault := .crash }
  | /-- A candidate path was computed from local variables. -/
    searched {pc : HandshakePc} {stem ext : List UInt8} {counter : ℕ} {target : Path}
      (searching : pc = .convert ∨
        ∃ stem ext counter target, pc = .rename stem ext counter target) :
      HandshakeStep hs w pc (.rename stem ext counter target) w
  | /-- A free name was found. -/
    named {stem ext name : List UInt8} {counter : ℕ} {target : Path}
      (free : fileExists P w target = false)
      (narrow : P.host.toNarrow target.filename = some name) :
      HandshakeStep hs w (.rename stem ext counter target) (.describe target)
        { w with currentFilename := name }
  | described {target : Path} :
      HandshakeStep hs w (.describe target) (.allot target)
        { w with
          currentManifest :=
            { w.currentManifest with
              fileHash := w.currentFilename
              fileSize := hs.fileSize
              chunkSize := hs.chunkSize
              totalChunks := hs.totalChunks } }
  | allotted {target : Path} :
      HandshakeStep hs w (.allot target) (.resetCount target)
        { w with
          currentManifest :=
            { w.currentManifest with
              completedChunks := List.replicate hs.totalChunks.toNat false } }
  | recount {target : Path} :
      HandshakeStep hs w (.resetCount target) (.preallocate target) { w with chunksRecv := 0 }
  | created {target : Path} :
      HandshakeStep hs w (.preallocate target) (.mapWrite target)
        { w with disk := w.disk ++ [target] }
  | mapped {target : Path} :
      HandshakeStep hs w (.mapWrite target) (.publish ⟨w.nextSerial, 0, hs.fileSize.toNat⟩)
        { w with
          fileMapper := some ⟨w.nextSerial, List.replicate hs.fileSize.toNat 0⟩
          nextSerial := w.nextSerial + 1 }
  | /-- Mapping failed after the old view was unmapped. -/
    unmapped {target : Path} :
      HandshakeStep hs w (.mapWrite target) .threw { w with fileMapper := none }
  | published {view : Span} :
      HandshakeStep hs w (.publish view) .acknowledge { w with writeView := view }
  | acknowledged {packed : List UInt8}
      (written : w.currentManifest.packBitfield = some packed) :
      HandshakeStep hs w .acknowledge .accepted
        (w.sendChunk (ackMessage hs.totalChunks packed) 0)
  | /-- Packing indexed beyond a vector. -/
    packFault {pc : HandshakePc} (packing : pc = .enter ∧ w.expectedChunks ≠ 0 ∨ pc = .acknowledge)
      (outside : w.currentManifest.packBitfield = none) :
      HandshakeStep hs w pc pc w.crash
  | /-- An exception left everything as it was. -/
    threw {pc : HandshakePc} (throwing : pc.canThrow = true) :
      HandshakeStep hs w pc .threw w

variable {P}

/-- Every step of `processHandshake` is one of the cases. -/
theorem handshakeStep_of_processHandshake {hs : Handshake} {pc next : HandshakePc} {ok : Bool}
    {w w' : Endpoint} (taken : processHandshake P hs pc ok w = some (next, w')) :
    HandshakeStep P hs w pc next w' := by
  cases pc with
  | enter =>
      simp only [processHandshake] at taken
      split at taken
      · rename_i hlatched
        split at taken
        · rename_i hpack
          cases taken
          exact .packFault (.inl ⟨rfl, hlatched⟩) hpack
        · rename_i packed hpack
          cases taken
          exact .resumed hlatched hpack
      · rename_i hopen
        split at taken
        · rename_i hwrong
          cases taken
          exact .rejected (not_not.mp hopen) hwrong
        · rename_i hright
          cases taken
          exact .admitted (not_not.mp hopen) (not_not.mp hright)
  | prepare =>
      simp only [processHandshake] at taken
      split at taken
      · rename_i hname
        cases taken
        exact .unterminated hname
      · rename_i name hname
        cases taken
        exact .prepared hname
  | convert =>
      simp only [processHandshake] at taken
      split at taken
      · cases taken
        exact .searched (.inl rfl)
      · cases taken
        exact .threw rfl
  | rename stem ext counter target =>
      simp only [processHandshake] at taken
      split at taken
      · cases taken
        exact .threw rfl
      · split at taken
        · split at taken
          · cases taken
            exact .searched (.inr ⟨_, _, _, _, rfl⟩)
          · cases taken
            exact .threw rfl
        · rename_i hfree
          split at taken
          · rename_i name hname
            cases taken
            exact .named (Bool.not_eq_true _ ▸ hfree) hname
          · cases taken
            exact .threw rfl
  | describe target =>
      cases taken
      exact .described
  | allot target =>
      cases taken
      exact .allotted
  | resetCount target =>
      cases taken
      exact .recount
  | preallocate target =>
      simp only [processHandshake] at taken
      split at taken
      · cases taken
        exact .created
      · cases taken
        exact .threw rfl
  | mapWrite target =>
      simp only [processHandshake] at taken
      split at taken
      · cases taken
        exact .mapped
      · cases taken
        exact .unmapped
  | publish view =>
      cases taken
      exact .published
  | acknowledge =>
      simp only [processHandshake] at taken
      split at taken
      · rename_i hpack
        cases taken
        exact .packFault (.inr rfl) hpack
      · rename_i packed hpack
        cases taken
        exact .acknowledged hpack
  | answered => cases taken
  | accepted => cases taken
  | threw => cases taken

/-- A task that has returned takes no further step. -/
theorem HandshakeStep.false_of_returned {hs : Handshake} {pc next : HandshakePc} {w v : Endpoint}
    (taken : HandshakeStep P hs w pc next v) (looked : pc ≠ .enter)
    (returned : pc.inProgress = false) : False := by
  cases taken with
  | resumed _ _ | rejected _ _ | admitted _ _ => exact looked rfl
  | searched searching => rcases searching with rfl | ⟨_, _, _, _, rfl⟩ <;> cases returned
  | packFault packing _ =>
      rcases packing with ⟨rfl, -⟩ | rfl
      · exact looked rfl
      · cases returned
  | threw throwing =>
      cases pc with
      | convert | rename _ _ _ _ | preallocate _ => cases returned
      | _ => cases throwing
  | _ => cases returned

variable (P)

/-- Where and why a chunk is dropped without anything being written. -/
def Drops (header : ChunkWireHeader) (payload : List UInt8) (w : Endpoint) : ChunkPc → Prop
  | .enter =>
    w.writeView.size = 0 ∨
      w.writeView.size < chunkOffset header.chunkId + header.originalSize.toNat
  | .decrypt _ => Crypto.decrypt P.ssl payload w.aesKey header.chunkId = none
  | .check target => ∃ held, target.read w.fileMapper = some held ∧
      Hasher.crc32 held ≠ header.crc32
  | _ => False

/-- Where and why the task reads from a view that is not mapped any more. -/
def Faults (w : Endpoint) : ChunkPc → Prop
  | .decompress target _ => target.read w.fileMapper = none
  | .check target => target.read w.fileMapper = none
  | _ => False

/-- The steps of `processChunk`. -/
inductive ChunkStep (header : ChunkWireHeader) (payload : List UInt8) (w : Endpoint) :
    ChunkPc → ChunkPc → Endpoint → Prop
  | /-- The target lies inside the view. -/
    targeted (nonempty : w.writeView.size ≠ 0)
      (inside : chunkOffset header.chunkId + header.originalSize.toNat ≤ w.writeView.size) :
      ChunkStep header payload w .enter
        (.decrypt ⟨w.writeView.mapping, w.writeView.offset + chunkOffset header.chunkId,
          header.originalSize.toNat⟩) w
  | decrypted {target : Span} {plain : List UInt8}
      (opened : Crypto.decrypt P.ssl payload w.aesKey header.chunkId = some plain) :
      ChunkStep header payload w (.decrypt target) (.decompress target plain) w
  | /-- The decompressor has written into the target; it failed if the task is
    dropped here. -/
    written {target : Span} {plain held : List UInt8} {next : ChunkPc}
      (live : target.read w.fileMapper = some held)
      (result : next =
        if (SmartCompressor.decompress P.codecs plain held
          (Strategy.ofByte header.compressStra)).1 = none then .dropped else .check target) :
      ChunkStep header payload w (.decompress target plain) next
        { w with
          fileMapper := target.write (SmartCompressor.decompress P.codecs plain held
            (Strategy.ofByte header.compressStra)).2 w.fileMapper }
  | verified {target : Span} {held : List UInt8} (live : target.read w.fileMapper = some held)
      (sum : Hasher.crc32 held = header.crc32) :
      ChunkStep header payload w (.check target) .mark w
  | marked (inside : header.chunkId.toNat < w.currentManifest.completedChunks.length) :
      ChunkStep header payload w .mark .addBytes
        { w with
          currentManifest :=
            { w.currentManifest with
              completedChunks :=
                w.currentManifest.completedChunks.set header.chunkId.toNat true } }
  | /-- There is no bit of that number, and the task goes on. -/
    strayed (outside : w.currentManifest.completedChunks.length ≤ header.chunkId.toNat) :
      ChunkStep header payload w .mark .addBytes w.stray
  | metered :
      ChunkStep header payload w .addBytes .count
        { w with metrics := w.metrics.map fun m => m.addBytes header.originalSize.toUInt64 }
  | counted :
      ChunkStep header payload w .count (.report (w.chunksRecv + 1))
        { w with chunksRecv := w.chunksRecv + 1 }
  | reported {received : UInt32} :
      ChunkStep header payload w (.report received) (.compare received) w.reportProgress
  | completed {received : UInt32} (last : received = w.expectedChunks) :
      ChunkStep header payload w (.compare received) (.stored received true)
        { w with transComplete := true }
  | finished {received : UInt32} (more : received ≠ w.expectedChunks) :
      ChunkStep header payload w (.compare received) (.stored received false) w
  | dropped {pc : ChunkPc} (reason : Drops P header payload w pc) :
      ChunkStep header payload w pc .dropped w
  | fault {pc : ChunkPc} (reason : Faults w pc) :
      ChunkStep header payload w pc pc w.crash

variable {P}

theorem beforeMark_of_drops {header : ChunkWireHeader} {payload : List UInt8} {w : Endpoint}
    {pc : ChunkPc} (reason : Drops P header payload w pc) : pc.beforeMark = true := by
  cases pc <;> first | rfl | exact reason.elim

/-- Every step of `processChunk` is one of the cases. -/
theorem chunkStep_of_processChunk {header : ChunkWireHeader} {payload : List UInt8}
    {pc next : ChunkPc} {w w' : Endpoint}
    (taken : processChunk P header payload pc w = some (next, w')) :
    ChunkStep P header payload w pc next w' := by
  cases pc with
  | enter =>
      simp only [processChunk] at taken
      split at taken
      · rename_i hempty
        cases taken
        exact .dropped (.inl hempty)
      · rename_i hnonempty
        split at taken
        · rename_i houtside
          cases taken
          exact .dropped (.inr houtside)
        · rename_i hinside
          cases taken
          exact .targeted hnonempty (not_lt.mp hinside)
  | decrypt target =>
      simp only [processChunk] at taken
      split at taken
      · rename_i hsealed
        cases taken
        exact .dropped hsealed
      · rename_i plain hopen
        cases taken
        exact .decrypted hopen
  | decompress target plain =>
      simp only [processChunk] at taken
      split at taken
      · rename_i hdangling
        cases taken
        exact .fault hdangling
      · rename_i held hlive
        split at taken
        · rename_i hnone
          cases taken
          exact .written hlive (by rw [if_pos hnone])
        · rename_i size hsize
          cases taken
          exact .written hlive (by rw [if_neg (by rw [hsize]; exact Option.some_ne_none _)])
  | check target =>
      simp only [processChunk] at taken
      split at taken
      · rename_i hdangling
        cases taken
        exact .fault hdangling
      · rename_i held hlive
        split at taken
        · rename_i hsum
          cases taken
          exact .dropped ⟨held, hlive, hsum⟩
        · rename_i hsum
          cases taken
          exact .verified hlive (not_not.mp hsum)
  | mark =>
      simp only [processChunk] at taken
      split at taken
      · rename_i hinside
        cases taken
        exact .marked hinside
      · rename_i houtside
        cases taken
        exact .strayed (not_lt.mp houtside)
  | addBytes =>
      cases taken
      exact .metered
  | count =>
      cases taken
      exact .counted
  | report received =>
      cases taken
      exact .reported
  | compare received =>
      simp only [processChunk] at taken
      split at taken
      · rename_i hlast
        cases taken
        exact .completed hlast
      · rename_i hmore
        cases taken
        exact .finished hmore
  | dropped => cases taken
  | stored received last => cases taken

variable (P)

/-- The steps of a chunk task of the sender. -/
inductive SendStep (job : SendJob) (w : Endpoint) : SendPc → SendPc → Endpoint → Prop
  | /-- The view the chunk lies in is not mapped any more. -/
    dangling (outside : job.data.read w.fileMapper = none) :
      SendStep job w .compress .compress w.crash
  | compressed {input bytes : List UInt8} (live : job.data.read w.fileMapper = some input)
      (packed : job.compressed P.codecs input = some bytes) :
      SendStep job w .compress (.encrypt bytes) w
  | encrypted {bytes encrypted : List UInt8}
      (closed : Crypto.encrypt P.ssl bytes w.aesKey job.chunkId = some encrypted) :
      SendStep job w (.encrypt bytes) (.send (job.wireBuffer encrypted))
        { w with encryptCalls := w.encryptCalls ++ [⟨w.aesKey, Crypto.iv job.chunkId, bytes⟩] }
  | /-- Encryption was called and failed. -/
    unencrypted {bytes : List UInt8} :
      SendStep job w (.encrypt bytes) .failed
        { w with encryptCalls := w.encryptCalls ++ [⟨w.aesKey, Crypto.iv job.chunkId, bytes⟩] }
  | sent {wireBuffer : List UInt8} :
      SendStep job w (.send wireBuffer) .count (w.sendChunk wireBuffer (job.chunkId % 4))
  | counted : SendStep job w .count .addBytes { w with chunksSent := w.chunksSent + 1 }
  | metered :
      SendStep job w .addBytes .sent
        { w with metrics := w.metrics.map fun m => m.addBytes job.size.toUInt64 }
  | /-- An exception before or after the encryption, which the task logs. -/
    failed {pc : SendPc} (failing : pc = .compress ∨ ∃ wireBuffer, pc = .send wireBuffer) :
      SendStep job w pc .failed w

variable {P}

/-- Every step of a chunk task of the sender is one of the cases. -/
theorem sendStep_of_sendChunkTask {job : SendJob} {pc next : SendPc} {ok : Bool}
    {w w' : Endpoint} (taken : sendChunkTask P job pc ok w = some (next, w')) :
    SendStep P job w pc next w' := by
  cases pc with
  | compress =>
      simp only [sendChunkTask] at taken
      split at taken
      · rename_i hdangling
        cases taken
        exact .dangling hdangling
      · rename_i input hlive
        split at taken
        · rename_i bytes hpacked
          split at taken <;> cases taken
          · exact .compressed hlive hpacked
          · exact .failed (.inl rfl)
        · cases taken
          exact .failed (.inl rfl)
  | encrypt bytes =>
      simp only [sendChunkTask] at taken
      split at taken
      · rename_i encrypted hclosed
        split at taken <;> cases taken
        · exact .encrypted hclosed
        · exact .unencrypted
      · cases taken
        exact .unencrypted
  | send wireBuffer =>
      simp only [sendChunkTask] at taken
      split at taken <;> cases taken
      · exact .sent
      · exact .failed (.inr ⟨wireBuffer, rfl⟩)
  | count =>
      cases taken
      exact .counted
  | addBytes =>
      cases taken
      exact .metered
  | sent => cases taken
  | failed => cases taken

variable (P)

/-- The steps of a task. -/
inductive TaskStep (w : Endpoint) : Task → Task → Endpoint → Prop
  | handshake {hs : Handshake} {pc next : HandshakePc} {v : Endpoint}
      (taken : HandshakeStep P hs w pc next v) :
      TaskStep w (.handshake hs pc) (.handshake hs next) v
  | recvChunk {header : ChunkWireHeader} {payload : List UInt8} {pc next : ChunkPc} {v : Endpoint}
      (taken : ChunkStep P header payload w pc next v) :
      TaskStep w (.recvChunk header payload pc) (.recvChunk header payload next) v
  | sendChunk {job : SendJob} {pc next : SendPc} {v : Endpoint}
      (taken : SendStep P job w pc next v) :
      TaskStep w (.sendChunk job pc) (.sendChunk job next) v

variable {P}

/-- Every step of a task is one of the cases. -/
theorem taskStep_of_runTask {task next : Task} {ok : Bool} {w w' : Endpoint}
    (taken : runTask P task ok w = some (next, w')) : TaskStep P w task next w' := by
  cases task with
  | handshake hs pc =>
      obtain ⟨⟨pc', v⟩, hstep, heq⟩ := Option.map_eq_some_iff.mp taken
      cases heq
      exact .handshake (handshakeStep_of_processHandshake hstep)
  | recvChunk header payload pc =>
      obtain ⟨⟨pc', v⟩, hstep, heq⟩ := Option.map_eq_some_iff.mp taken
      cases heq
      exact .recvChunk (chunkStep_of_processChunk hstep)
  | sendChunk job pc =>
      obtain ⟨⟨pc', v⟩, hstep, heq⟩ := Option.map_eq_some_iff.mp taken
      cases heq
      exact .sendChunk (sendStep_of_sendChunkTask hstep)

/-- A step of a task queues none and removes none. -/
theorem TaskStep.tasks {task next : Task} {w v : Endpoint} (taken : TaskStep P w task next v) :
    v.tasks = w.tasks := by
  cases taken with
  | handshake taken => cases taken <;> rfl
  | recvChunk taken =>
      cases taken with
      | reported => rw [reportProgress_eq]
      | _ => rfl
  | sendChunk taken => cases taken <;> rfl

variable (P)

/-- The steps of the thread inside `sendFile` or `recvFile`. -/
inductive MainStep (strategy : Strategy) (w : Endpoint) : MainPc → Endpoint → Prop
  | keyed {args : SendArgs} :
      MainStep strategy w (.deriveKey args)
        { w with aesKey := Crypto.deriveKey P.ssl args.pin, main := .sendHandshake args }
  | announced {args : SendArgs} :
      MainStep strategy w (.sendHandshake args)
        { w.sendChunk args.handshake.encode 0 with main := .waitAck args }
  | acked {args : SendArgs} (published : w.handshakeAcked = true) :
      MainStep strategy w (.waitAck args) { w with main := .checkRejected args }
  | rejected {args : SendArgs} (refused : w.handshakeRejected = true) :
      MainStep strategy w (.checkRejected args) { w with main := .returned }
  | accepted {args : SendArgs} (agreed : w.handshakeRejected = false) :
      MainStep strategy w (.checkRejected args) { w with main := .slice args }
  | dangling {args : SendArgs} (outside : args.fileView.read w.fileMapper = none) :
      MainStep strategy w (.slice args) w.crash
  | sliced {args : SendArgs} {bytes : List UInt8}
      (live : args.fileView.read w.fileMapper = some bytes) :
      MainStep strategy w (.slice args)
        { w with
          main := .submit args strategy
            (UInt32.ofNat (Chunker.slice bytes Chunker.kDefaultChunkSize).length)
            (Chunker.slice bytes Chunker.kDefaultChunkSize) }
  | skipped {args : SendArgs} {chosen : Strategy} {total : UInt32} {chunk : Chunk}
      {rest : List Chunk} (known : w.skips chunk = true) :
      MainStep strategy w (.submit args chosen total (chunk :: rest))
        { w with chunksSent := w.chunksSent + 1, main := .submit args chosen total rest }
  | submitted {args : SendArgs} {chosen : Strategy} {total : UInt32} {chunk : Chunk}
      {rest : List Chunk} (unknown : w.skips chunk = false) :
      MainStep strategy w (.submit args chosen total (chunk :: rest))
        { w.submit (.sendChunk (SendJob.ofChunk args.fileView chosen chunk) .compress) with
          main := .submit args chosen total rest }
  | drained {args : SendArgs} {chosen : Strategy} {total : UInt32} :
      MainStep strategy w (.submit args chosen total []) { w with main := .drain total }
  | polled {total : UInt32} (more : w.chunksSent < total) :
      MainStep strategy w (.drain total) w.reportProgress
  | finished {total : UInt32} {reports : List Int} :
      MainStep strategy w (.drain total) { w with reports := reports, main := .collect }
  | /-- `sendFile` returns after its last task, `recvFile` on completion. -/
    returned {pc : MainPc}
      (done : pc = .collect ∨ pc = .receiving ∧ w.transComplete = true) :
      MainStep strategy w pc { w with main := .returned }

variable {P}

/-- Every step of that thread is one of the cases. -/
theorem mainStep_of_mainThread {strategy : Strategy} {waitSnd : UInt32 → Int} {w w' : Endpoint}
    (taken : mainThread P strategy waitSnd w = some w') : MainStep P strategy w w.main w' := by
  unfold mainThread at taken
  split at taken
  · rename_i hmain
    rw [hmain]
    cases taken
    exact .keyed
  · rename_i hmain
    rw [hmain]
    cases taken
    exact .announced
  · rename_i hmain
    rw [hmain]
    split at taken
    · rename_i hacked
      cases taken
      exact .acked hacked
    · cases taken
  · rename_i hmain
    rw [hmain]
    split at taken
    · rename_i hrefused
      cases taken
      exact .rejected hrefused
    · rename_i hagreed
      cases taken
      exact .accepted (Bool.not_eq_true _ ▸ hagreed)
  · rename_i hmain
    rw [hmain]
    split at taken
    · rename_i hdangling
      cases taken
      exact .dangling hdangling
    · rename_i bytes hlive
      cases taken
      exact .sliced hlive
  · rename_i hmain
    rw [hmain]
    cases taken
    exact .drained
  · rename_i hmain
    rw [hmain]
    split at taken
    · rename_i hknown
      cases taken
      exact .skipped hknown
    · rename_i hunknown
      split at taken
      · cases taken
      · cases taken
        exact .submitted (Bool.not_eq_true _ ▸ hunknown)
  · rename_i hmain
    rw [hmain]
    split at taken
    · rename_i hmore
      cases taken
      exact .polled hmore
    · cases taken
      exact .finished
  · rename_i hmain
    rw [hmain]
    split at taken
    · cases taken
    · cases taken
      exact .returned (.inl rfl)
  · rename_i hmain
    rw [hmain]
    split at taken
    · rename_i hcomplete
      cases taken
      exact .returned (.inr ⟨rfl, hcomplete⟩)
    · cases taken
  · cases taken

/-- The handshake a message carries, if it is of that kind and of full size. -/
def handshakeIn (data : List UInt8) : Option Handshake :=
  if data.head?.bind MessageType.ofByte = some .handshake ∧ Handshake.size ≤ data.length then
    some (Handshake.decode data)
  else none

/-- The header and the payload a message carries, if it is a chunk message and holds
as many payload bytes as its header says. -/
def chunkIn (data : List UInt8) : Option (ChunkWireHeader × List UInt8) :=
  let header := ChunkWireHeader.decode data
  if data.head?.bind MessageType.ofByte = some .chunkData ∧
      ChunkWireHeader.size + header.compressedSize.toNat ≤ data.length then
    some (header, Buffer.block data ChunkWireHeader.size header.compressedSize.toNat)
  else none

/-- The bits an acknowledgement carries; `none` if its field is shorter than the
count it announces. -/
def ackBits (data : List UInt8) : Option (List Bool) :=
  BitField.readBits (data.drop HandshakeAck.size)
    (List.range (HandshakeAck.decode data).totalChunks.toNat)

/-- The bits of an acknowledgement are those of the field it was made of. -/
theorem ackBits_ackMessage (totalChunks : UInt32) (packed : List UInt8) :
    ackBits (ackMessage totalChunks packed) =
      BitField.readBits packed (List.range totalChunks.toNat) := by
  rw [ackBits, ackMessage, List.drop_left' (HandshakeAck.length_encode _),
    HandshakeAck.decode_encode]

/-- The bits of an acknowledgement that carries them can be read. -/
theorem ackBits_of_carriesBits {data : List UInt8} (whole : HandshakeAck.size ≤ data.length)
    (carries : CarriesBits data) : ∃ bits, ackBits data = some bits := by
  have hbytes := carries whole
  refine ⟨_, BitField.readBits_eq_some fun i hi => ?_⟩
  rw [List.length_drop]
  have hlt := List.mem_range.mp hi
  omega

/-- What the network thread does with one message. -/
inductive Received (data : List UInt8) (w : Endpoint) : Endpoint → Prop
  | handshake {hs : Handshake} (carried : handshakeIn data = some hs) :
      Received data w (w.submit (.handshake hs .enter))
  | chunk {header : ChunkWireHeader} {payload : List UInt8}
      (other : handshakeIn data = none) (carried : chunkIn data = some (header, payload)) :
      Received data w (w.submit (.recvChunk header payload .enter))
  | /-- The message is ignored. -/
    ignored (other : handshakeIn data = none) : Received data w w
  | /-- An acknowledgement has fewer bits than it announces. -/
    ackFault (other : handshakeIn data = none)
      (short : messageKind data = some .handshakeAck ∧ ¬ CarriesBits data) :
      Received data w w.crash
  | acked {bits : List Bool} (other : handshakeIn data = none)
      (first : w.handshakeAcked = false) (whole : ackBits data = some bits) :
      Received data w { w with resumeBitfield := bits, net := .publishAcked }
  | rejected (other : handshakeIn data = none) :
      Received data w { w with handshakeRejected := true, net := .publishAcked }

/-- Every message is handled in one of these ways. -/
theorem received_handleRecv (data : List UInt8) (w : Endpoint) :
    Received data w (handleRecv data w) := by
  cases data with
  | nil => exact .ignored rfl
  | cons type rest =>
      rw [handleRecv]
      split
      · rename_i hkind
        split
        · rename_i hwhole
          exact .handshake (by simpa [handshakeIn, hkind] using hwhole)
        · rename_i hshort
          exact .ignored (by simpa [handshakeIn, hkind] using hshort)
      · rename_i hkind
        have hother : handshakeIn (type :: rest) = none := by simp [handshakeIn, hkind]
        rw [processHandshakeACk]
        split
        · exact .ignored hother
        · rename_i hfirst
          split
          · exact .ignored hother
          · rename_i hwhole
            dsimp only
            split
            · rename_i hbits
              refine .ackFault hother ⟨by simp [messageKind, hkind], fun hcarries => ?_⟩
              obtain ⟨bits, hread⟩ := ackBits_of_carriesBits (Nat.not_lt.mp hwhole) hcarries
              cases hbits.symm.trans hread
            · rename_i bits hbits
              exact .acked hother (Bool.not_eq_true _ ▸ hfirst) hbits
      · rename_i hkind
        exact .rejected (by simp [handshakeIn, hkind])
      · rename_i hkind
        have hother : handshakeIn (type :: rest) = none := by simp [handshakeIn, hkind]
        split
        · dsimp only
          split
          · exact .ignored hother
          · rename_i hwhole
            exact .chunk hother (by simpa [chunkIn, hkind] using hwhole)
        · exact .ignored hother
      · rename_i hkind
        exact .ignored (by simp [handshakeIn, hkind])

theorem handshakeIn_encode {hs : Handshake} (hname : hs.fileName.length = fileNameSize) :
    handshakeIn hs.encode = some hs := by
  have hdecode : Handshake.decode hs.encode = hs := by
    simpa using Handshake.decode_encode hname []
  have hkind : hs.encode.head?.bind MessageType.ofByte = some .handshake := by
    simp [Handshake.encode]
  rw [handshakeIn, if_pos ⟨hkind, (Handshake.length_encode hname).ge⟩, hdecode]

/-- A handshake of full size is always queued. -/
theorem handleRecv_of_handshakeIn {data : List UInt8} {hs : Handshake}
    (carried : handshakeIn data = some hs) (w : Endpoint) :
    handleRecv data w = w.submit (.handshake hs .enter) := by
  have hreceived := received_handleRecv data w
  generalize handleRecv data w = v at hreceived
  cases hreceived with
  | handshake found =>
      cases found.symm.trans carried
      rfl
  | chunk other _ | ignored other | ackFault other _ | acked other _ _ | rejected other =>
      cases other.symm.trans carried

theorem chunkIn_encode {header : ChunkWireHeader} {payload : List UInt8}
    (size : header.compressedSize.toNat = payload.length) :
    chunkIn (header.encode ++ payload) = some (header, payload) := by
  have hkind : (header.encode ++ payload).head?.bind MessageType.ofByte = some .chunkData := by
    simp [ChunkWireHeader.encode]
  have hlength : ChunkWireHeader.size + payload.length ≤ (header.encode ++ payload).length := by
    rw [List.length_append, ChunkWireHeader.length_encode]
  rw [chunkIn]
  simp only [ChunkWireHeader.decode_encode, size]
  rw [if_pos ⟨hkind, hlength⟩,
    Buffer.block_append_of_le (ChunkWireHeader.length_encode header).le,
    ChunkWireHeader.length_encode, Nat.sub_self, Buffer.block_zero_length]

/-- A chunk message with its whole payload is always queued. -/
theorem handleRecv_of_chunkIn {data payload : List UInt8} {header : ChunkWireHeader}
    (carried : chunkIn data = some (header, payload)) (w : Endpoint) :
    handleRecv data w = w.submit (.recvChunk header payload .enter) := by
  simp only [chunkIn, Option.ite_none_right_eq_some, Option.some.injEq, Prod.mk.injEq] at carried
  obtain ⟨⟨hkind, hwhole⟩, rfl, rfl⟩ := carried
  cases data with
  | nil => cases hkind
  | cons type rest =>
      have htype : MessageType.ofByte type = some .chunkData := by simpa using hkind
      simp only [handleRecv, htype]
      rw [if_pos (by omega), if_neg (by omega)]

theorem handshakeIn_of_chunkIn {data : List UInt8} {message : ChunkWireHeader × List UInt8}
    (carried : chunkIn data = some message) : handshakeIn data = none := by
  simp only [chunkIn, Option.ite_none_right_eq_some] at carried
  rw [handshakeIn, carried.1.1]
  simp

variable (P)

/-- A step of an endpoint, by the thread that takes it. -/
inductive Step (w : Endpoint) : Event → Endpoint → Prop
  | deliver {data : List UInt8} {w' : Endpoint} (idle : w.net = .idle)
      (received : Received data w w') : Step w (.deliver data) w'
  | network : Step w .network { w with handshakeAcked := true, net := .idle }
  | handshake {index : ℕ} {ok : Bool} {hs : Handshake} {pc next : HandshakePc} {v : Endpoint}
      (found : w.tasks[index]? = some (.handshake hs pc))
      (taken : HandshakeStep P hs w pc next v) :
      Step w (.task index ok) { v with tasks := v.tasks.set index (.handshake hs next) }
  | recvChunk {index : ℕ} {ok : Bool} {header : ChunkWireHeader} {payload : List UInt8}
      {pc next : ChunkPc} {v : Endpoint}
      (found : w.tasks[index]? = some (.recvChunk header payload pc))
      (taken : ChunkStep P header payload w pc next v) :
      Step w (.task index ok) { v with tasks := v.tasks.set index (.recvChunk header payload next) }
  | sendChunk {index : ℕ} {ok : Bool} {job : SendJob} {pc next : SendPc} {v : Endpoint}
      (found : w.tasks[index]? = some (.sendChunk job pc))
      (taken : SendStep P job w pc next v) :
      Step w (.task index ok) { v with tasks := v.tasks.set index (.sendChunk job next) }
  | main {strategy : Strategy} {waitSnd : UInt32 → Int} {w' : Endpoint}
      (taken : MainStep P strategy w w.main w') : Step w (.main strategy waitSnd) w'

variable {P}

theorem live_of_step {event : Event} {w w' : Endpoint} (taken : step P event w = some w') :
    w.fault ≠ .crash := by
  unfold step at taken
  split at taken
  · cases taken
  · rename_i hlive
    exact hlive

/-- A message is handled when there is no answer left to publish. -/
theorem deliver_of_step {data : List UInt8} {w w' : Endpoint}
    (taken : step P (.deliver data) w = some w') :
    w.net = .idle ∧ w' = handleRecv data w := by
  unfold step at taken
  split at taken
  · cases taken
  · dsimp only at taken
    split at taken
    · rename_i hidle
      exact ⟨hidle, (Option.some.inj taken).symm⟩
    · cases taken

theorem publishing_of_step {w w' : Endpoint} (taken : step P .network w = some w') :
    w.net = .publishAcked ∧ w' = { w with handshakeAcked := true, net := .idle } := by
  unfold step at taken
  split at taken
  · cases taken
  · dsimp only at taken
    split at taken
    · cases taken
    · rename_i hpublishing
      exact ⟨hpublishing, (Option.some.inj taken).symm⟩

/-- A task that is in the pool takes a step. -/
theorem runTask_of_step {index : ℕ} {ok : Bool} {w w' : Endpoint}
    (taken : step P (.task index ok) w = some w') :
    ∃ task next v, w.tasks[index]? = some task ∧ runTask P task ok w = some (next, v) ∧
      w' = { v with tasks := v.tasks.set index next } := by
  unfold step at taken
  split at taken
  · cases taken
  · dsimp only at taken
    split at taken
    · cases taken
    · rename_i task hfound
      obtain ⟨⟨next, v⟩, hrun, rfl⟩ := Option.map_eq_some_iff.mp taken
      exact ⟨task, next, v, hfound, hrun, rfl⟩

theorem mainThread_of_step {strategy : Strategy} {waitSnd : UInt32 → Int} {w w' : Endpoint}
    (taken : step P (.main strategy waitSnd) w = some w') :
    mainThread P strategy waitSnd w = some w' := by
  unfold step at taken
  split at taken
  · cases taken
  · exact taken

/-- Every step is one of the cases, and none is taken after a crash. -/
theorem step_cases {event : Event} {w w' : Endpoint} (taken : step P event w = some w') :
    w.fault ≠ .crash ∧ Step P w event w' := by
  refine ⟨live_of_step taken, ?_⟩
  cases event with
  | deliver data =>
      obtain ⟨hidle, rfl⟩ := deliver_of_step taken
      exact .deliver hidle (received_handleRecv data w)
  | network =>
      obtain ⟨-, rfl⟩ := publishing_of_step taken
      exact .network
  | task index ok =>
      obtain ⟨task, next, v, hfound, hrun, rfl⟩ := runTask_of_step taken
      cases taskStep_of_runTask hrun with
      | handshake hstep => exact .handshake hfound hstep
      | recvChunk hstep => exact .recvChunk hfound hstep
      | sendChunk hstep => exact .sendChunk hfound hstep
  | main strategy waitSnd => exact .main (mainStep_of_mainThread (mainThread_of_step taken))

end Endpoint

end Sxaint.Net
