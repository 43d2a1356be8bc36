/-
# Integrity of stored chunks

Only the payload of a chunk message is authenticated. The strategy, the size and the
checksum in its header are whatever arrived, the result of the decompressor is not
compared with the size, and the target is written before the checksum is. What is kept
depends on the headers: as long as each of them makes the decompressor bring bytes of
the target to those of the file only, and lets the checksum pass only with the whole
chunk in place, every chunk recorded as stored holds the bytes of the file.
-/

import Sxaint.Net.Initialisation
import Sxaint.Net.KnownAnswers
import Sxaint.Net.Latch

namespace Sxaint.Net

open Sxaint.Core Transition

/-- The chunk message that an event brings in. -/
def Event.chunk? : Event → Option (ChunkWireHeader × List UInt8)
  | .deliver data => Endpoint.chunkIn data
  | _ => none

namespace SourceFile

/-- A handshake announces the size and the chunks of the file. -/
structure Announces (file : SourceFile) (hs : Handshake) : Prop where
  fileSize : hs.fileSize.toNat = file.contents.length
  totalChunks : hs.totalChunks.toNat = file.chunkCount

instance (file : SourceFile) (hs : Handshake) : Decidable (file.Announces hs) :=
  decidable_of_iff (hs.fileSize.toNat = file.contents.length ∧
    hs.totalChunks.toNat = file.chunkCount) ⟨fun h => ⟨h.1, h.2⟩, fun h => ⟨h.1, h.2⟩⟩

/-- The bytes of the file that a header's target stands for. -/
def original (file : SourceFile) (header : ChunkWireHeader) : List UInt8 :=
  Buffer.block file.contents (Endpoint.chunkOffset header.chunkId) header.originalSize.toNat

/-- A payload opens under the key for its header's chunk only if it is the one that the
sender produced for that chunk. -/
def Authentic (P : Platform) (file : SourceFile) (key : List UInt8)
    (message : ChunkWireHeader × List UInt8) : Prop :=
  Crypto.decrypt P.ssl message.2 key message.1.chunkId ≠ none →
    message.1.chunkId.toNat < file.chunkCount ∧
      file.sealedChunk P key message.1.chunkId.toNat = some message.2

instance (P : Platform) (file : SourceFile) (key : List UInt8)
    (message : ChunkWireHeader × List UInt8) : Decidable (file.Authentic P key message) :=
  inferInstanceAs (Decidable (_ → _))

/-- Bytes of the target that pass the checksum of a header start with the whole chunk. -/
def Passes (file : SourceFile) (header : ChunkWireHeader) (bytes : List UInt8) : Prop :=
  Hasher.crc32 bytes = header.crc32 →
    (file.chunk header.chunkId.toNat).length ≤ header.originalSize.toNat ∧
      Buffer.block bytes 0 (file.chunk header.chunkId.toNat).length =
        file.chunk header.chunkId.toNat

/-- A header whose target lies inside the file does no harm to the sender's compressed
chunk: decompressing into the target, whatever part of it is zero still and whatever part
holds the file already, brings bytes to those of the file only. If that does not fail, the
checksum passes only with the whole chunk in place, also if other tasks have brought more
bytes to those of the file by then. -/
def Faithful (codecs : CodecLibrary) (file : SourceFile) (header : ChunkWireHeader) : Prop :=
  Endpoint.chunkOffset header.chunkId + header.originalSize.toNat ≤ file.contents.length →
    ∀ packed ∈ file.packed codecs header.chunkId.toNat, ∀ held,
      Buffer.Toward (file.original header) (List.replicate header.originalSize.toNat 0) held →
        let result := SmartCompressor.decompress codecs packed held
          (Strategy.ofByte header.compressStra)
        Buffer.Toward (file.original header) held result.2 ∧
          (result.1 ≠ none → ∀ left, Buffer.Toward (file.original header) result.2 left →
            file.Passes header left)

/-- A message that opens has a header that does no harm. -/
def Harmless (P : Platform) (file : SourceFile) (key : List UInt8)
    (message : ChunkWireHeader × List UInt8) : Prop :=
  Crypto.decrypt P.ssl message.2 key message.1.chunkId ≠ none →
    file.Faithful P.codecs message.1

theorem packed_isSome {codecs : CodecLibrary} {file : SourceFile}
    (inverts : SmartCompressor.Inverts codecs Chunker.kDefaultChunkSize file.strategy) {i : ℕ}
    (inside : i < file.chunkCount) :
    ∃ packed, file.packed codecs i = some packed ∧
      packed.length ≤
        SmartCompressor.getCompressBound codecs (file.chunk i).length file.strategy ∧
      ∀ output : List UInt8, output.length = (file.chunk i).length →
        SmartCompressor.decompress codecs packed output (some file.strategy) =
          (some (file.chunk i).length, file.chunk i) := by
  have hlength := length_chunk inside
  have hpos := Chunker.chunkLength_pos (show 0 < Chunker.kDefaultChunkSize by decide) inside
  refine inverts (file.chunk i) (fun hnil => ?_) ?_
  · rw [hnil, List.length_nil] at hlength
    omega
  · rw [hlength]
    exact Chunker.chunkLength_le _ _ _

/-- A header has the size and the strategy that the sender sent for its chunk. -/
def Describes (file : SourceFile) (header : ChunkWireHeader) : Prop :=
  header.chunkId.toNat < file.chunkCount ∧
    header.originalSize.toNat = (file.chunk header.chunkId.toNat).length ∧
      header.compressStra = file.strategy.toByte

instance (file : SourceFile) (header : ChunkWireHeader) : Decidable (file.Describes header) :=
  inferInstanceAs (Decidable (_ ∧ _ ∧ _))

/-- Such a header does no harm. -/
theorem faithful_of_describes {codecs : CodecLibrary} {file : SourceFile}
    {header : ChunkWireHeader}
    (inverts : SmartCompressor.Inverts codecs Chunker.kDefaultChunkSize file.strategy)
    (describes : file.Describes header) : file.Faithful codecs header := by
  obtain ⟨inside, size, strategy⟩ := describes
  obtain ⟨packed, hpacked, -, hrestores⟩ := packed_isSome inverts inside
  have horiginal : file.original header = file.chunk header.chunkId.toNat := by
    rw [original, size, length_chunk inside]
    rfl
  intro _ found hfound held hzeroed
  have hheld : held.length = header.originalSize.toNat :=
    hzeroed.1.trans List.length_replicate
  obtain rfl : packed = found := Option.some.inj (hpacked.symm.trans hfound)
  simp only [strategy, Strategy.ofByte_toByte, hrestores held (hheld.trans size), horiginal]
  refine ⟨⟨by rw [hheld, size], fun _ => .inr rfl⟩, fun _ left hleft _ => ⟨size.ge, ?_⟩⟩
  rw [hleft.eq, Buffer.block_zero_length]

/-- A chunk that was sent as it is comes to no harm under a header that says so, whatever
size and checksum it has. -/
theorem faithful_of_none {codecs : CodecLibrary} {file : SourceFile} {header : ChunkWireHeader}
    (uncompressed : file.strategy = .NONE) (strategy : header.compressStra = Strategy.NONE.toByte) :
    file.Faithful codecs header := by
  intro _ packed hpacked held hzeroed
  have hheld := hzeroed.1.trans List.length_replicate
  obtain rfl : file.chunk header.chunkId.toNat = packed := by
    simpa [SourceFile.packed, uncompressed, SmartCompressor.compress,
      SmartCompressor.getCompressBound] using hpacked
  simp only [strategy, Strategy.ofByte_toByte, SmartCompressor.decompress]
  split
  · exact ⟨Buffer.toward_refl _ _, fun h => (h rfl).elim⟩
  · rename_i hfits
    have hshort : (file.chunk header.chunkId.toNat).length ≤ header.originalSize.toNat := by omega
    have hwhole : Buffer.block (file.original header) 0 (file.chunk header.chunkId.toNat).length =
        file.chunk header.chunkId.toNat := by
      rw [original, Buffer.block_block _ _ hshort]
      exact Buffer.block_length_self _ _ _
    have hinside : 0 + (file.chunk header.chunkId.toNat).length ≤ held.length := by omega
    refine ⟨Buffer.toward_overwrite hinside ⟨(Buffer.length_block_of_le hinside).symm, fun _ =>
      .inr (by rw [hwhole])⟩, fun _ left hleft _ => ⟨hshort, ?_⟩⟩
    have hpart := hleft.part 0 (file.chunk header.chunkId.toNat).length
    rw [hwhole, Buffer.block_overwrite_self hinside] at hpart
    exact hpart.eq

end SourceFile

namespace Endpoint

variable {P : Platform} {file : SourceFile}

/-- Every handshake that is accepted announces the file. -/
def Receives (file : SourceFile) (w : Endpoint) (event : Event) : Prop :=
  ∀ hs ∈ w.entering event, w.expectedChunks = 0 → hs.pin = w.expectedPin → file.Announces hs

/-- No payload is forged. -/
def Authenticates (P : Platform) (file : SourceFile) (w : Endpoint) (event : Event) : Prop :=
  ∀ message ∈ event.chunk?, file.Authentic P (Crypto.deriveKey P.ssl w.expectedPin) message

/-- The file is received and no payload is forged. -/
def Authorised (P : Platform) (file : SourceFile) (w : Endpoint) (event : Event) : Prop :=
  w.Receives file event ∧ w.Authenticates P file event

instance (w : Endpoint) (event : Event) : Decidable (w.Receives file event) :=
  inferInstanceAs (Decidable (∀ hs ∈ w.entering event, _))

instance (w : Endpoint) (event : Event) : Decidable (w.Authorised P file event) :=
  inferInstanceAs (Decidable (_ ∧ ∀ message ∈ event.chunk?, _))

/-- Besides, no message that opens does harm. -/
def Sound (P : Platform) (file : SourceFile) (w : Endpoint) (event : Event) : Prop :=
  w.Authorised P file event ∧
    ∀ message ∈ event.chunk?, file.Harmless P (Crypto.deriveKey P.ssl w.expectedPin) message

/-! ## Announced handshakes -/

/-- The accepted handshakes announce the file, and the completion bits are not allotted
or those of its chunks. -/
structure Announced (file : SourceFile) (w : Endpoint) : Prop where
  handshakes : ∀ hs pc, Task.handshake hs pc ∈ w.tasks → pc.admitted = true → file.Announces hs
  bits : w.currentManifest.completedChunks.length = 0 ∨
    w.currentManifest.completedChunks.length = file.chunkCount

theorem admitted_of_inProgress {pc : HandshakePc} (running : pc.inProgress = true) :
    pc.admitted = true := by
  cases pc <;> first | rfl | cases running

/-- A step of a receiver that accepts handshakes of the file only. -/
theorem announced_of_receives {pin : UInt32} {outputDir : Path} {event : Event}
    {w w' : Endpoint} (receiver : Receiver pin outputDir w) (inv : Announced file w)
    (ok : w.Receives file event) (taken : Step P w event w') : Announced file w' := by
  cases taken with
  | deliver idle received =>
      cases received with
      | handshake _ | chunk _ _ =>
          refine ⟨fun hs pc hmem hpc => ?_, inv.bits⟩
          rcases List.mem_append.mp hmem with hold | hnew
          · exact inv.handshakes hs pc hold hpc
          · cases List.mem_singleton.mp hnew
            try cases hpc
      | _ => exact ⟨inv.handshakes, inv.bits⟩
  | network => exact ⟨inv.handshakes, inv.bits⟩
  | @handshake index _ hs pc next v found taken =>
      have htasks := (taskFrame_of_handshakeStep taken).tasks
      have hold : pc.admitted = true → file.Announces hs :=
        inv.handshakes hs pc (List.mem_of_getElem? found)
      have hnew : next.admitted = true → file.Announces hs := by
        cases taken with
        | admitted unlatched right => exact fun _ => ok hs (mem_entering.mpr found) unlatched right
        | resumed _ _ | rejected _ _ => exact fun h => nomatch h
        | searched searching =>
            rcases searching with rfl | ⟨_, _, _, _, rfl⟩ <;> exact fun _ => hold rfl
        | packFault _ _ => exact hold
        | threw throwing => cases pc <;> first | exact fun _ => hold rfl | cases throwing
        | _ => exact fun _ => hold rfl
      refine ⟨fun hs' pc' hmem hpc => ?_, ?_⟩
      · simp only [htasks] at hmem
        rcases List.mem_or_eq_of_mem_set hmem with hmem | heq
        · exact inv.handshakes hs' pc' hmem hpc
        · cases heq
          exact hnew hpc
      · cases taken with
        | allotted => exact .inr (List.length_replicate.trans (hold rfl).totalChunks)
        | _ => exact inv.bits
  | @recvChunk index _ header payload pc next v found taken =>
      have hframe := chunkFrame_of_chunkStep taken
      refine ⟨fun hs' pc' hmem hpc => ?_, by simpa only [hframe.bitCount] using inv.bits⟩
      simp only [hframe.tasks] at hmem
      rcases List.mem_or_eq_of_mem_set hmem with hold | hnew
      · exact inv.handshakes hs' pc' hold hpc
      · cases hnew
  | sendChunk found taken => exact (receiver.tasks _ (List.mem_of_getElem? found)).elim
  | main taken =>
      obtain ⟨-, rfl⟩ := returned_of_mainStep receiver.main taken
      exact ⟨inv.handshakes, inv.bits⟩

/-! ## The published view -/

/-- The bytes of the mapped view. -/
def mappedBytes (w : Endpoint) : List UInt8 :=
  (w.fileMapper.map Mapping.bytes).getD []

/-- Some bytes of the write view. -/
def viewSpan (w : Endpoint) (offset length : ℕ) : Span :=
  ⟨w.writeView.mapping, w.writeView.offset + offset, length⟩

/-- Where a chunk task puts its chunk. -/
def target (w : Endpoint) (header : ChunkWireHeader) : Span :=
  w.viewSpan (chunkOffset header.chunkId) header.originalSize.toNat

theorem length_mappedBytes {size : ℕ} {w : Endpoint} (covers : Covers w.writeView size w) :
    w.mappedBytes.length = size := by
  obtain ⟨view, hview, hsize⟩ := Option.map_eq_some_iff.mp covers.mapped
  rw [mappedBytes, hview]
  exact hsize

/-- Bytes inside the write view are those of the mapped view. -/
theorem read_viewSpan {size offset length : ℕ} {w : Endpoint} (covers : Covers w.writeView size w)
    (fits : offset + length ≤ size) :
    (w.viewSpan offset length).read w.fileMapper =
      some (Buffer.block w.mappedBytes offset length) := by
  obtain ⟨view, hview, hsize⟩ := Option.map_eq_some_iff.mp covers.mapped
  have hserial : view.serial = w.writeView.mapping := by
    simpa [hview] using covers.serial
  unfold Span.read
  split
  · rename_i hempty
    have hlength : length = 0 := hempty
    rw [hlength]
    rfl
  · simp only [hview, viewSpan, covers.offset, Nat.zero_add, mappedBytes]
    rw [if_pos ⟨hserial, hsize.symm ▸ fits⟩]
    rfl

/-- Writing bytes inside the write view overwrites those of the mapped view. -/
theorem mappedBytes_write {size offset : ℕ} {new : List UInt8} {w : Endpoint}
    (covers : Covers w.writeView size w) :
    mappedBytes { w with fileMapper := (w.viewSpan offset new.length).write new w.fileMapper } =
      Buffer.overwrite w.mappedBytes offset new := by
  obtain ⟨view, hview, -⟩ := Option.map_eq_some_iff.mp covers.mapped
  simp only [mappedBytes, Span.write]
  split
  · rename_i hempty
    have hnil : new = [] := List.eq_nil_of_length_eq_zero hempty
    simp [Buffer.overwrite, hnil]
  · simp [hview, viewSpan, covers.offset]

/-- A handshake task is past the store of the view. -/
def Published (w : Endpoint) : Prop :=
  ∃ hs pc, Task.handshake hs pc ∈ w.tasks ∧ (pc = .acknowledge ∨ pc = .accepted)

/-- What the accepted handshake has built for the chunks of the file. -/
structure Opened (P : Platform) (file : SourceFile) (w : Endpoint) : Prop where
  keyed : Keyed P w
  covers : Covers w.writeView file.contents.length w
  bits : w.currentManifest.completedChunks.length = file.chunkCount
  latched : w.expectedChunks.toNat = file.chunkCount
  total : w.currentManifest.totalChunks = w.expectedChunks
  alone : ∀ hs pc, Task.handshake hs pc ∈ w.tasks → pc.inProgress = true → pc = .acknowledge

theorem holds_of_announces {hs : Handshake} {pc : HandshakePc} (nonempty : 0 < file.chunkCount)
    (announces : file.Announces hs) (on : pc.inProgress = true ∨ pc = .accepted) :
    (Task.handshake hs pc).holds = true := by
  have hnonzero : hs.totalChunks ≠ 0 := by
    rintro hzero
    have := announces.totalChunks
    simp only [hzero, UInt32.toNat_zero] at this
    omega
  rcases on with hon | rfl
  · exact holds_of_inProgress hon
  · simpa [Task.holds, HandshakePc.inProgress] using hnonzero

/-- Once the view is published, everything is in place and no initialisation follows. -/
theorem opened_of_published {w : Endpoint} (nonempty : 0 < file.chunkCount)
    (exclusive : Exclusive P w) (announced : Announced file w) (published : w.Published) :
    Opened P file w := by
  obtain ⟨hs, pc, hmem, hpc⟩ := published
  have hadmitted : pc.admitted = true := by rcases hpc with rfl | rfl <;> rfl
  have hannounces := announced.handshakes hs pc hmem hadmitted
  have hholds : (Task.handshake hs pc).holds = true :=
    holds_of_announces nonempty hannounces
      (by rcases hpc with rfl | rfl <;> simp [HandshakePc.inProgress])
  obtain ⟨hkeyed, hallotted, hcovers⟩ : Keyed P w ∧ Allotted hs w ∧
      Covers w.writeView hs.fileSize.toNat w := by
    have hstage := exclusive.stage hs pc hmem hholds
    rcases hpc with rfl | rfl <;> exact hstage
  have hexpected := exclusive.expected hs pc hmem hholds
  refine ⟨hkeyed, hannounces.fileSize ▸ hcovers, hallotted.bits.trans hannounces.totalChunks, ?_,
    hallotted.totalChunks.trans hexpected.symm, fun hs' pc' hmem' hrunning => ?_⟩
  · rw [hexpected]
    exact hannounces.totalChunks
  · cases exclusive.single.eq_of_mem hmem hmem' hholds (holds_of_inProgress hrunning)
    rcases hpc with rfl | rfl
    · rfl
    · cases hrunning

/-- An accepted handshake of the file leaves no room for another one. -/
theorem oneAtATime_of_receives {w : Endpoint} {event : Event} (nonempty : 0 < file.chunkCount)
    (exclusive : Exclusive P w) (announced : Announced file w) : OneAtATime w event := by
  intro hs _ hzero _ task hmem
  refine Bool.eq_false_iff.mpr fun hrunning => ?_
  cases task with
  | handshake other pc =>
      have hannounces := announced.handshakes other pc hmem (admitted_of_inProgress hrunning)
      have hexpected := exclusive.expected other pc hmem (holds_of_inProgress hrunning)
      have htotal := hannounces.totalChunks
      rw [← hexpected, hzero, UInt32.toNat_zero] at htotal
      omega
  | recvChunk _ _ _ | sendChunk _ _ => cases hrunning

/-! ## Chunk tasks -/

/-- What a chunk task can rely on where it is. -/
def ChunkTask (P : Platform) (file : SourceFile) (w : Endpoint) (header : ChunkWireHeader)
    (payload : List UInt8) : ChunkPc → Prop
  | .decrypt target =>
    target = w.target header ∧
      chunkOffset header.chunkId + header.originalSize.toNat ≤ file.contents.length
  | .decompress target plain =>
    target = w.target header ∧
      chunkOffset header.chunkId + header.originalSize.toNat ≤ file.contents.length ∧
      Crypto.decrypt P.ssl payload w.aesKey header.chunkId = some plain
  | .check target =>
    target = w.target header ∧
      chunkOffset header.chunkId + header.originalSize.toNat ≤ file.contents.length ∧
      ∀ left, Buffer.Toward (file.original header)
        (Buffer.block w.mappedBytes (chunkOffset header.chunkId) header.originalSize.toNat) left →
          file.Passes header left
  | .mark =>
    Buffer.block w.mappedBytes (chunkOffset header.chunkId)
      (file.chunk header.chunkId.toNat).length = file.chunk header.chunkId.toNat
  | _ => True

/-- Before the view is published nothing is stored, and a view that was mapped is zero. -/
structure Unpublished (file : SourceFile) (w : Endpoint) : Prop where
  writeView : w.writeView.size = 0
  tasks : ∀ header payload pc, Task.recvChunk header payload pc ∈ w.tasks →
    pc = .enter ∨ pc = .dropped
  bits : ∀ i : ℕ, w.currentManifest.completedChunks[i]? ≠ some true
  fresh : ∀ hs view, Task.handshake hs (.publish view) ∈ w.tasks →
    w.mappedBytes = List.replicate file.contents.length 0

/-- Afterwards every byte of the view is zero or the file's, and what is recorded as stored
holds the bytes of the file. -/
structure Storing (P : Platform) (file : SourceFile) (w : Endpoint) : Prop where
  published : w.Published
  zeroed : Buffer.Toward file.contents (List.replicate file.contents.length 0) w.mappedBytes
  tasks : ∀ header payload pc, Task.recvChunk header payload pc ∈ w.tasks →
    ChunkTask P file w header payload pc
  bits : ∀ i : ℕ, w.currentManifest.completedChunks[i]? = some true →
    Buffer.block w.mappedBytes (i * Chunker.kDefaultChunkSize) (file.chunk i).length =
      file.chunk i

/-- The messages of all chunk tasks are authentic and do no harm. -/
def Trusted (P : Platform) (file : SourceFile) (w : Endpoint) : Prop :=
  ∀ header payload pc, Task.recvChunk header payload pc ∈ w.tasks →
    file.Authentic P (Crypto.deriveKey P.ssl w.expectedPin) (header, payload) ∧
      file.Harmless P (Crypto.deriveKey P.ssl w.expectedPin) (header, payload)

/-- A block of the file that is in place stays there. -/
theorem block_of_toward {w v : Endpoint} {offset length : ℕ} {bytes : List UInt8}
    (toward : Buffer.Toward file.contents w.mappedBytes v.mappedBytes)
    (whole : Buffer.block file.contents offset length = bytes)
    (placed : Buffer.block w.mappedBytes offset length = bytes) :
    Buffer.block v.mappedBytes offset length = bytes := by
  have hpart := toward.part offset length
  rw [placed, whole] at hpart
  exact hpart.eq

theorem block_chunk (file : SourceFile) (i : ℕ) :
    Buffer.block file.contents (i * Chunker.kDefaultChunkSize) (file.chunk i).length =
      file.chunk i :=
  Buffer.block_length_self _ _ _

/-- Bringing bytes of the view to those of the file keeps what a task relies on. -/
theorem chunkTask_of_toward {w v : Endpoint} {header : ChunkWireHeader} {payload : List UInt8}
    {pc : ChunkPc} (good : ChunkTask P file w header payload pc) (aesKey : v.aesKey = w.aesKey)
    (writeView : v.writeView = w.writeView)
    (toward : Buffer.Toward file.contents w.mappedBytes v.mappedBytes) :
    ChunkTask P file v header payload pc := by
  have htarget : v.target header = w.target header := by
    rw [target, viewSpan, writeView, target, viewSpan]
  cases pc with
  | decrypt _ => exact ⟨good.1.trans htarget.symm, good.2⟩
  | decompress _ _ => exact ⟨good.1.trans htarget.symm, good.2.1, aesKey ▸ good.2.2⟩
  | check _ =>
      exact ⟨good.1.trans htarget.symm, good.2.1, fun left hleft =>
        good.2.2 left ((toward.part _ _).trans hleft)⟩
  | mark => exact block_of_toward toward (block_chunk file _) good
  | _ => trivial

/-- What opens is what the sender compressed. -/
theorem packed_of_decrypt {key payload plain : List UInt8} {header : ChunkWireHeader}
    (lawful : P.ssl.Lawful) (authentic : file.Authentic P key (header, payload))
    (opened : Crypto.decrypt P.ssl payload key header.chunkId = some plain) :
    file.packed P.codecs header.chunkId.toNat = some plain := by
  obtain ⟨-, hsealed⟩ := authentic (by rw [opened]; exact Option.some_ne_none _)
  obtain ⟨packed, hpacked, hencrypt⟩ := Option.bind_eq_some_iff.mp hsealed
  rw [UInt32.ofNat_toNat] at hencrypt
  obtain ⟨sealed, hsealed, -, hopen⟩ := Crypto.decrypt_encrypt lawful packed key header.chunkId
  obtain rfl := Option.some.inj (hencrypt.symm.trans hsealed)
  rw [hpacked, Option.some.inj (hopen.symm.trans opened)]

/-- A chunk task writes into the view: what it writes approaches the file. -/
theorem storing_written {header : ChunkWireHeader} {payload plain held : List UInt8}
    {w : Endpoint} (lawful : P.ssl.Lawful) (opened : Opened P file w)
    (zeroed : Buffer.Toward file.contents (List.replicate file.contents.length 0) w.mappedBytes)
    (trusted : file.Authentic P (Crypto.deriveKey P.ssl w.expectedPin) (header, payload) ∧
      file.Harmless P (Crypto.deriveKey P.ssl w.expectedPin) (header, payload))
    (good : ChunkTask P file w header payload (.decompress (w.target header) plain))
    (live : (w.target header).read w.fileMapper = some held) :
    let result := SmartCompressor.decompress P.codecs plain held
      (Strategy.ofByte header.compressStra)
    let v := { w with fileMapper := (w.target header).write result.2 w.fileMapper }
    Buffer.Toward file.contents w.mappedBytes v.mappedBytes ∧
      (result.1 ≠ none → ChunkTask P file v header payload (.check (w.target header))) := by
  obtain ⟨-, hinside, hopen⟩ := good
  have hlength := length_mappedBytes opened.covers
  have hfits : chunkOffset header.chunkId + header.originalSize.toNat ≤ w.mappedBytes.length := by
    rwa [hlength]
  obtain rfl : Buffer.block w.mappedBytes (chunkOffset header.chunkId)
      header.originalSize.toNat = held :=
    Option.some.inj ((read_viewSpan opened.covers hinside).symm.trans live)
  have hheld := Buffer.length_block_of_le hfits
  rw [opened.keyed] at hopen
  have hpacked := packed_of_decrypt lawful trusted.1 hopen
  have hfaithful : file.Faithful P.codecs header :=
    trusted.2 (by rw [hopen]; exact Option.some_ne_none _)
  have hzeroed := zeroed.part (chunkOffset header.chunkId) header.originalSize.toNat
  rw [Buffer.block_replicate hinside] at hzeroed
  obtain ⟨htoward, hpasses⟩ := hfaithful hinside plain hpacked _ hzeroed
  intro result v
  have hsize : result.2.length = header.originalSize.toNat :=
    (SmartCompressor.length_decompress _ _ _ _).trans hheld
  have hbytes : v.mappedBytes =
      Buffer.overwrite w.mappedBytes (chunkOffset header.chunkId) result.2 := by
    have hwrite := @mappedBytes_write _ (chunkOffset header.chunkId) result.2 _ opened.covers
    rw [hsize] at hwrite
    exact hwrite
  rw [← hsize] at hfits
  refine ⟨?_, fun hnone => ⟨rfl, hinside, fun left hleft => hpasses hnone left ?_⟩⟩
  · rw [hbytes]
    refine Buffer.toward_overwrite hfits ?_
    rw [hsize]
    exact htoward
  · rw [hbytes, ← hsize, Buffer.block_overwrite_self hfits] at hleft
    exact hleft

/-! ## Steps -/

/-- A step that leaves the view, the key and the bits alone. -/
private theorem storing_of_same {w v : Endpoint} (inv : Storing P file w)
    (published : v.Published)
    (tasks : ∀ header payload pc, Task.recvChunk header payload pc ∈ v.tasks →
      Task.recvChunk header payload pc ∈ w.tasks ∨ pc = .enter)
    (aesKey : v.aesKey = w.aesKey) (writeView : v.writeView = w.writeView)
    (fileMapper : v.fileMapper = w.fileMapper)
    (bits : v.currentManifest.completedChunks = w.currentManifest.completedChunks) :
    Storing P file v := by
  have hbytes : v.mappedBytes = w.mappedBytes := by rw [mappedBytes, fileMapper, mappedBytes]
  refine ⟨published, hbytes ▸ inv.zeroed, fun header payload pc hmem => ?_, ?_⟩
  · rcases tasks header payload pc hmem with hold | rfl
    · exact chunkTask_of_toward (inv.tasks _ _ _ hold) aesKey writeView
        (hbytes ▸ Buffer.toward_refl _ _)
    · trivial
  · rw [bits, hbytes]
    exact inv.bits

/-- A step of a chunk task that brings bytes of the view to those of the file only. -/
private theorem storing_chunk {index : ℕ} {header : ChunkWireHeader} {payload : List UInt8}
    {pc next : ChunkPc} {w v : Endpoint} (inv : Storing P file w)
    (found : w.tasks[index]? = some (.recvChunk header payload pc)) (frame : ChunkFrame w v)
    (toward : Buffer.Toward file.contents w.mappedBytes v.mappedBytes)
    (good : ChunkTask P file v header payload next)
    (bits : ∀ i : ℕ, v.currentManifest.completedChunks[i]? = some true →
      w.currentManifest.completedChunks[i]? = some true ∨
        Buffer.block w.mappedBytes (i * Chunker.kDefaultChunkSize) (file.chunk i).length =
          file.chunk i) :
    Storing P file { v with tasks := v.tasks.set index (.recvChunk header payload next) } := by
  refine ⟨?_, inv.zeroed.trans toward, fun header' payload' pc' hmem => ?_, fun i hbit => ?_⟩
  · obtain ⟨hs, pc', hmem, hpc⟩ := inv.published
    simp only [Published, frame.tasks]
    exact ⟨hs, pc', Pool.mem_set_of_ne found hmem nofun _, hpc⟩
  · simp only [frame.tasks] at hmem
    rcases List.mem_or_eq_of_mem_set hmem with hold | hnew
    · exact chunkTask_of_toward (inv.tasks _ _ _ hold) frame.aesKey frame.writeView toward
    · cases hnew
      exact chunkTask_of_toward good rfl rfl (Buffer.toward_refl _ _)
  · exact block_of_toward toward (block_chunk file i) ((bits i hbit).elim (inv.bits i) id)

/-- The step of a chunk task. -/
private theorem storing_chunkStep {index : ℕ} {header : ChunkWireHeader} {payload : List UInt8}
    {pc next : ChunkPc} {w v : Endpoint} (lawful : P.ssl.Lawful) (opened : Opened P file w)
    (trusted : file.Authentic P (Crypto.deriveKey P.ssl w.expectedPin) (header, payload) ∧
      file.Harmless P (Crypto.deriveKey P.ssl w.expectedPin) (header, payload))
    (inv : Storing P file w) (found : w.tasks[index]? = some (.recvChunk header payload pc))
    (taken : ChunkStep P header payload w pc next v) :
    Storing P file { v with tasks := v.tasks.set index (.recvChunk header payload next) } := by
  have hframe := chunkFrame_of_chunkStep taken
  have hgood : ChunkTask P file w header payload pc :=
    inv.tasks _ _ _ (List.mem_of_getElem? found)
  have hsame := Buffer.toward_refl file.contents w.mappedBytes
  cases taken with
  | targeted _ inside =>
      rw [opened.covers.size] at inside
      exact storing_chunk inv found hframe hsame ⟨rfl, inside⟩ fun _ h => .inl h
  | decrypted opens =>
      exact storing_chunk inv found hframe hsame ⟨hgood.1, hgood.2, opens⟩ fun _ h => .inl h
  | @written target plain held next live result =>
      obtain rfl := hgood.1
      obtain ⟨htoward, hcheck⟩ := storing_written lawful opened inv.zeroed trusted hgood live
      refine storing_chunk inv found hframe htoward ?_ fun _ h => .inl h
      rw [result]
      split
      · trivial
      · rename_i hnone
        exact hcheck hnone
  | @verified target held live sum =>
      obtain ⟨rfl, hinside, hpasses⟩ := hgood
      obtain rfl : Buffer.block w.mappedBytes (chunkOffset header.chunkId)
          header.originalSize.toNat = held :=
        Option.some.inj ((read_viewSpan opened.covers hinside).symm.trans live)
      obtain ⟨hshort, hchunk⟩ := hpasses _ (Buffer.toward_refl _ _) sum
      rw [Buffer.block_block _ _ hshort] at hchunk
      exact storing_chunk inv found hframe hsame hchunk fun _ h => .inl h
  | marked inside =>
      refine storing_chunk inv found hframe hsame trivial fun i hbit => ?_
      simp only [List.getElem?_set] at hbit
      split at hbit
      · rename_i hi
        subst hi
        exact .inr hgood
      · exact .inl hbit
  | reported =>
      rw [reportProgress_eq] at hframe ⊢
      exact storing_chunk inv found hframe hsame trivial fun _ h => .inl h
  | fault reason =>
      exact storing_chunk inv found hframe hsame
        (chunkTask_of_toward hgood rfl rfl (Buffer.toward_refl _ _)) fun _ h => .inl h
  | _ => exact storing_chunk inv found hframe hsame trivial fun _ h => .inl h

/-- The step of a handshake task while chunks are stored. -/
private theorem storing_handshakeStep {index : ℕ} {hs : Handshake} {pc next : HandshakePc}
    {w v : Endpoint} (nonempty : 0 < file.chunkCount) (opened : Opened P file w)
    (inv : Storing P file w) (found : w.tasks[index]? = some (.handshake hs pc))
    (taken : HandshakeStep P hs w pc next v) :
    Storing P file { v with tasks := v.tasks.set index (.handshake hs next) } := by
  have hframe := taskFrame_of_handshakeStep taken
  have halone : pc.inProgress = true → pc = .acknowledge :=
    opened.alone hs pc (List.mem_of_getElem? found)
  have hchunks : ∀ header payload pc',
      Task.recvChunk header payload pc' ∈ w.tasks.set index (.handshake hs next) →
        Task.recvChunk header payload pc' ∈ w.tasks ∨ pc' = .enter := by
    intro header payload pc' hmem
    rcases List.mem_or_eq_of_mem_set hmem with hold | hnew
    · exact .inl hold
    · cases hnew
  have hpublished : next = pc ∨ pc = .enter ∨ next = .accepted →
      ∃ hs' pc', Task.handshake hs' pc' ∈ w.tasks.set index (.handshake hs next) ∧
        (pc' = .acknowledge ∨ pc' = .accepted) := by
    rintro hpc
    obtain ⟨hs', pc', hmem, hpc'⟩ := inv.published
    by_cases hself : Task.handshake hs' pc' = .handshake hs pc
    · cases hself
      have hlt := (List.getElem?_eq_some_iff.mp found).1
      refine ⟨hs, next, List.mem_set hlt _, ?_⟩
      rcases hpc with rfl | rfl | rfl
      · exact hpc'
      · rcases hpc' with h | h <;> cases h
      · exact .inr rfl
    · exact ⟨hs', pc', Pool.mem_set_of_ne found hmem hself _, hpc'⟩
  cases taken with
  | resumed _ _ | rejected _ _ =>
      exact storing_of_same inv (hpublished (.inr (.inl rfl))) hchunks rfl rfl rfl rfl
  | acknowledged _ =>
      exact storing_of_same inv (hpublished (.inr (.inr rfl))) hchunks rfl rfl rfl rfl
  | packFault _ _ => exact storing_of_same inv (hpublished (.inl rfl)) hchunks rfl rfl rfl rfl
  | admitted unlatched _ =>
      have hlatched := opened.latched
      rw [unlatched, UInt32.toNat_zero] at hlatched
      omega
  | searched searching =>
      rcases searching with rfl | ⟨_, _, _, _, rfl⟩ <;> cases halone rfl
  | threw throwing =>
      cases pc with
      | convert | rename _ _ _ _ | preallocate _ => cases halone rfl
      | _ => cases throwing
  | _ => cases halone rfl

/-- The step of a handshake task before anything is stored. -/
private theorem unpublished_handshakeStep {index : ℕ} {hs : Handshake} {pc next : HandshakePc}
    {w v : Endpoint} (exclusive : Exclusive P w) (announced : Announced file w)
    (inv : Unpublished file w) (found : w.tasks[index]? = some (.handshake hs pc))
    (taken : HandshakeStep P hs w pc next v) :
    Unpublished file { v with tasks := v.tasks.set index (.handshake hs next) } ∨
      Storing P file { v with tasks := v.tasks.set index (.handshake hs next) } := by
  have htasks := (taskFrame_of_handshakeStep taken).tasks
  have hmem := List.mem_of_getElem? found
  have hchunks : ∀ header payload pc',
      Task.recvChunk header payload pc' ∈ v.tasks.set index (.handshake hs next) →
        pc' = .enter ∨ pc' = .dropped := by
    intro header payload pc' hmem
    rw [htasks] at hmem
    rcases List.mem_or_eq_of_mem_set hmem with hold | hnew
    · exact inv.tasks _ _ _ hold
    · cases hnew
  have hfresh (same : v.fileMapper = w.fileMapper) (other : ∀ view, next ≠ .publish view) :
      ∀ hs' view, Task.handshake hs' (.publish view) ∈ v.tasks.set index (.handshake hs next) →
        v.mappedBytes = List.replicate file.contents.length 0 := by
    intro hs' view hmem
    rw [mappedBytes, same]
    rw [htasks] at hmem
    rcases List.mem_or_eq_of_mem_set hmem with hold | hnew
    · exact inv.fresh hs' view hold
    · cases hnew
      exact (other view rfl).elim
  cases taken with
  | @published view =>
      have hlt := (List.getElem?_eq_some_iff.mp found).1
      have hzero : w.mappedBytes = List.replicate file.contents.length 0 := inv.fresh hs view hmem
      refine .inr ⟨⟨hs, _, List.mem_set hlt _, .inl rfl⟩, hzero ▸ Buffer.toward_refl _ _,
        fun header payload pc' hmem => ?_, fun i hbit => (inv.bits i hbit).elim⟩
      rcases hchunks header payload pc' hmem with rfl | rfl <;> trivial
  | allotted =>
      refine .inl ⟨inv.writeView, hchunks, fun i hbit => ?_, hfresh rfl nofun⟩
      simp [List.getElem?_replicate] at hbit
  | mapped =>
      refine .inl ⟨inv.writeView, hchunks, inv.bits, fun _ _ _ => ?_⟩
      rw [← (announced.handshakes hs _ hmem rfl).fileSize]
      rfl
  | @unmapped target =>
      refine .inl ⟨inv.writeView, hchunks, inv.bits, fun hs' view hmem' => ?_⟩
      -- the one handshake being initialised is the one that fails
      rcases List.mem_or_eq_of_mem_set hmem' with hold | hnew
      · cases exclusive.single.eq_of_mem (List.mem_of_getElem? found) hold (holds_of_inProgress rfl)
          (holds_of_inProgress rfl)
      · cases hnew
  | packFault packing _ =>
      rcases packing with ⟨rfl, -⟩ | rfl <;>
        exact .inl ⟨inv.writeView, hchunks, inv.bits, hfresh rfl nofun⟩
  | _ => exact .inl ⟨inv.writeView, hchunks, inv.bits, hfresh rfl nofun⟩

/-- The messages that arrive are trusted, and those of the tasks stay the same. -/
theorem trusted_step {pin : UInt32} {outputDir : Path} {event : Event} {w w' : Endpoint}
    (receiver : Receiver pin outputDir w) (inv : Trusted P file w) (ok : w.Sound P file event)
    (taken : Step P w event w') : Trusted P file w' := by
  have hpin : w'.expectedPin = w.expectedPin :=
    (receiver_step receiver taken).expectedPin.trans receiver.expectedPin.symm
  rw [Trusted, hpin]
  intro header payload pc hmem
  cases taken with
  | deliver idle received =>
      cases received with
      | handshake _ =>
          rcases List.mem_append.mp hmem with hold | hnew
          · exact inv _ _ _ hold
          · cases List.mem_singleton.mp hnew
      | chunk _ carried =>
          rcases List.mem_append.mp hmem with hold | hnew
          · exact inv _ _ _ hold
          · cases List.mem_singleton.mp hnew
            exact ⟨ok.1.2 (header, payload) carried, ok.2 (header, payload) carried⟩
      | _ => exact inv _ _ _ hmem
  | network => exact inv _ _ _ hmem
  | handshake found taken =>
      simp only [(taskFrame_of_handshakeStep taken).tasks] at hmem
      rcases List.mem_or_eq_of_mem_set hmem with hold | hnew
      · exact inv _ _ _ hold
      · cases hnew
  | recvChunk found taken =>
      simp only [(chunkFrame_of_chunkStep taken).tasks] at hmem
      rcases List.mem_or_eq_of_mem_set hmem with hold | hnew
      · exact inv _ _ _ hold
      · cases hnew
        exact inv _ _ _ (List.mem_of_getElem? found)
  | sendChunk found taken => exact (receiver.tasks _ (List.mem_of_getElem? found)).elim
  | main taken =>
      obtain ⟨-, rfl⟩ := returned_of_mainStep receiver.main taken
      exact inv _ _ _ hmem

/-- The invariant of runs that receive a file from sound messages. -/
structure Integrity (P : Platform) (file : SourceFile) (w : Endpoint) : Prop where
  exclusive : Exclusive P w
  announced : Announced file w
  trusted : Trusted P file w
  phase : Unpublished file w ∨ Storing P file w

/-- A step of a receiver, before or after the view is published. -/
private theorem phase_step {pin : UInt32} {outputDir : Path} {event : Event} {w w' : Endpoint}
    (lawful : P.ssl.Lawful) (nonempty : 0 < file.chunkCount) (receiver : Receiver pin outputDir w)
    (inv : Integrity P file w) (taken : Step P w event w') :
    Unpublished file w' ∨ Storing P file w' := by
  have hsame {v : Endpoint} (tasks : ∀ task ∈ w.tasks, task ∈ v.tasks)
      (queued : ∀ task ∈ v.tasks, task ∈ w.tasks ∨ (∃ hs, task = .handshake hs .enter) ∨
        ∃ header payload, task = .recvChunk header payload .enter)
      (aesKey : v.aesKey = w.aesKey) (writeView : v.writeView = w.writeView)
      (fileMapper : v.fileMapper = w.fileMapper)
      (bits : v.currentManifest.completedChunks = w.currentManifest.completedChunks) :
      Unpublished file v ∨ Storing P file v := by
    have hchunks : ∀ header payload pc, Task.recvChunk header payload pc ∈ v.tasks →
        Task.recvChunk header payload pc ∈ w.tasks ∨ pc = .enter := by
      intro header payload pc hmem
      rcases queued _ hmem with hold | ⟨_, hnew⟩ | ⟨_, _, hnew⟩
      · exact .inl hold
      · cases hnew
      · cases hnew
        exact .inr rfl
    refine inv.phase.imp (fun h => ⟨?_, fun header payload pc hmem => ?_, ?_, ?_⟩) fun h => ?_
    · rw [writeView]
      exact h.writeView
    · exact (hchunks _ _ _ hmem).elim (h.tasks _ _ _) .inl
    · rw [bits]
      exact h.bits
    · intro hs view hmem
      rw [mappedBytes, fileMapper]
      rcases queued _ hmem with hold | ⟨_, hnew⟩ | ⟨_, _, hnew⟩
      · exact h.fresh hs view hold
      · cases hnew
      · cases hnew
    · obtain ⟨hs, pc, hmem, hpc⟩ := h.published
      exact storing_of_same h ⟨hs, pc, tasks _ hmem, hpc⟩ hchunks aesKey writeView fileMapper bits
  cases taken with
  | deliver idle received =>
      have hsubmit (task : Task) (fresh : (∃ hs, task = .handshake hs .enter) ∨
          ∃ header payload, task = .recvChunk header payload .enter) :
          Unpublished file (w.submit task) ∨ Storing P file (w.submit task) := by
        refine hsame (fun _ h => List.mem_append_left _ h) (fun other hmem => ?_) rfl rfl rfl rfl
        rcases List.mem_append.mp hmem with hold | hnew
        · exact .inl hold
        · exact .inr (List.mem_singleton.mp hnew ▸ fresh)
      cases received with
      | handshake _ => exact hsubmit _ (.inl ⟨_, rfl⟩)
      | chunk _ _ => exact hsubmit _ (.inr ⟨_, _, rfl⟩)
      | _ => exact hsame (fun _ h => h) (fun _ h => .inl h) rfl rfl rfl rfl
  | network => exact hsame (fun _ h => h) (fun _ h => .inl h) rfl rfl rfl rfl
  | handshake found taken =>
      rcases inv.phase with hphase | hphase
      · exact unpublished_handshakeStep inv.exclusive inv.announced hphase found taken
      · exact .inr (storing_handshakeStep nonempty
          (opened_of_published nonempty inv.exclusive inv.announced hphase.published)
          hphase found taken)
  | @recvChunk index _ header payload pc next v found taken =>
      rcases inv.phase with hphase | hphase
      · have hpc := hphase.tasks _ _ _ (List.mem_of_getElem? found)
        cases taken with
        | dropped _ =>
            refine .inl ⟨hphase.writeView, fun header' payload' pc' hmem => ?_, hphase.bits,
              fun hs view hmem => ?_⟩
            · rcases List.mem_or_eq_of_mem_set hmem with hold | hnew
              · exact hphase.tasks _ _ _ hold
              · cases hnew
                exact .inr rfl
            · rcases List.mem_or_eq_of_mem_set hmem with hold | hnew
              · exact hphase.fresh hs view hold
              · cases hnew
        | targeted nonempty _ => exact (nonempty hphase.writeView).elim
        | fault reason => rcases hpc with rfl | rfl <;> exact reason.elim
        | _ => rcases hpc with h | h <;> cases h
      · exact .inr (storing_chunkStep lawful
          (opened_of_published nonempty inv.exclusive inv.announced hphase.published)
          (inv.trusted _ _ _ (List.mem_of_getElem? found)) hphase found taken)
  | sendChunk found taken => exact (receiver.tasks _ (List.mem_of_getElem? found)).elim
  | main taken =>
      obtain ⟨-, rfl⟩ := returned_of_mainStep receiver.main taken
      exact hsame (fun _ h => h) (fun _ h => .inl h) rfl rfl rfl rfl

theorem announced_of_run {outputDir : Path} {pin : UInt32} {onProgress : Bool}
    {disk : List Path} {allowed : Endpoint → Event → Prop}
    (receives : ∀ w event, allowed w event → w.Receives file event) {events : List Event}
    {w : Endpoint}
    (run : (machine P (recvFile outputDir pin onProgress disk)).RunUnder allowed events w) :
    Announced file w := by
  induction run with
  | start => exact ⟨by simp [machine, recvFile], .inl rfl⟩
  | snoc prior ok taken ih =>
      exact announced_of_receives (receiver_run prior) ih (receives _ _ ok) (step_cases taken).2

/-- Every run that receives a file of at least one chunk from sound messages keeps the
invariant. -/
theorem integrity_run {outputDir : Path} {pin : UInt32} {onProgress : Bool} {disk : List Path}
    (lawful : P.ssl.Lawful) (nonempty : 0 < file.chunkCount) {events : List Event} {w : Endpoint}
    (run : (machine P (recvFile outputDir pin onProgress disk)).RunUnder
      (fun w event => w.Sound P file event) events w) :
    Integrity P file w := by
  induction run with
  | start =>
      refine ⟨exclusive_recvFile _ _ onProgress _, ⟨by simp [machine, recvFile], .inl rfl⟩, ?_,
        .inl ⟨rfl, ?_, ?_, ?_⟩⟩
      · simp [Trusted, machine, recvFile]
      · simp [machine, recvFile]
      · simp [machine, recvFile]
      · simp [machine, recvFile]
  | snoc prior ok taken ih =>
      have hstep := (step_cases taken).2
      have hreceiver := receiver_run prior
      exact ⟨exclusive_step hreceiver ih.exclusive
          (oneAtATime_of_receives nonempty ih.exclusive ih.announced) hstep,
        announced_of_receives hreceiver ih.announced ok.1.1 hstep,
        trusted_step hreceiver ih.trusted ok hstep,
        phase_step lawful nonempty hreceiver ih hstep⟩

/-- As long as no message that opens does harm, every chunk recorded as stored holds the bytes of
the file, whatever else arrives. -/
theorem chunk_of_completed {outputDir : Path} {pin : UInt32} {onProgress : Bool}
    {disk : List Path} (lawful : P.ssl.Lawful) {events : List Event} {w : Endpoint}
    (run : (machine P (recvFile outputDir pin onProgress disk)).RunUnder
      (fun w event => w.Sound P file event) events w) {i : ℕ}
    (completed : w.currentManifest.completedChunks[i]? = some true) :
    (w.viewSpan (i * Chunker.kDefaultChunkSize)
        (Chunker.chunkLength file.contents.length Chunker.kDefaultChunkSize i)).read
      w.fileMapper = some (file.chunk i) := by
  have hlt := (List.getElem?_eq_some_iff.mp completed).1
  have hannounced : Announced file w := announced_of_run (fun _ _ h => h.1.1) run
  have hinside : i < file.chunkCount := by
    rcases hannounced.bits with h | h <;> omega
  have inv := integrity_run lawful (by omega) run
  rcases inv.phase with hphase | hphase
  · exact (hphase.bits i completed).elim
  · have hopened := opened_of_published (by omega) inv.exclusive inv.announced hphase.published
    have hend := Chunker.chunkEnd_le (show 0 < Chunker.kDefaultChunkSize by decide) hinside
    rw [read_viewSpan hopened.covers hend, ← SourceFile.length_chunk hinside,
      hphase.bits i completed]

/-- A file that holds the byte `A`, sent as it is. -/
def letterA : SourceFile :=
  ⟨[65], .NONE⟩

/-- A chunk that arrives as it was sent is the one of the file. -/
theorem chunk_of_storage :
    let w := KnownAnswers.session.reached (KnownAnswers.acceptance 1 1 ++ KnownAnswers.storage 1)
    (w.viewSpan (0 * Chunker.kDefaultChunkSize)
        (Chunker.chunkLength 1 Chunker.kDefaultChunkSize 0)).read w.fileMapper =
      some (letterA.chunk 0) := by
  have hrun : KnownAnswers.session.RunUnder (fun w event =>
      w.Authorised KnownAnswers.platform letterA event ∧
        ∀ message ∈ event.chunk?, letterA.Describes message.1)
      (KnownAnswers.acceptance 1 1 ++ KnownAnswers.storage 1) _ :=
    Machine.runUnder_reached (by decide +kernel)
  refine @chunk_of_completed KnownAnswers.platform letterA KnownAnswers.outputDir 123456 false
    [KnownAnswers.outputDir]
    KnownAnswers.ssl_lawful _ _ (hrun.mono fun w event h => ⟨h.1, fun message hmem _ => ?_⟩) 0
    (by decide +kernel)
  exact SourceFile.faithful_of_describes
    (SmartCompressor.inverts_none KnownAnswers.codecs _) (h.2 message hmem)

/-- The genuine payload of that chunk, under a header that announces no bytes, the
checksum of no bytes and a strategy that does not exist. -/
def emptiedMessage : List UInt8 :=
  ChunkWireHeader.encode
    { chunkId := 0, compressedSize := 17, originalSize := 0, crc32 := 0, compressStra := 7 } ++
      50 :: KnownAnswers.tag

/-- The chunk is recorded as stored and the transfer as complete, and nothing was
written. -/
theorem completed_without_write :
    ∃ w, KnownAnswers.session.RunUnder
        (fun w event => w.Authorised KnownAnswers.platform letterA event)
        (KnownAnswers.acceptance 1 1 ++ .deliver emptiedMessage :: KnownAnswers.steps 1 9) w ∧
      w.currentManifest.completedChunks = [true] ∧ w.transComplete = true ∧
      (w.viewSpan 0 1).read w.fileMapper = some [0] ∧ letterA.chunk 0 = [65] :=
  ⟨_, Machine.runUnder_reached (by decide +kernel), by decide +kernel, by decide +kernel,
    by decide +kernel, by decide +kernel⟩

end Endpoint

end Sxaint.Net
