/-
# Sending a file

The thread of `sendFile` from the moment its socket is open, and the chunk task
it submits to the pool. The strategy that `detect` selects and the queue lengths
that `get_wait_snd` reads come from outside the session and are arguments of the
steps that use them.
-/

import Sxaint.Core.Partition
import Sxaint.Net.Session

namespace Sxaint.Net

open Sxaint.Core

/-- The chunk size announced in the handshake. -/
def announcedChunkSize : UInt32 :=
  UInt32.ofNat Chunker.kDefaultChunkSize

/-- The number of chunks announced in the handshake, computed in 64 bits. -/
def announcedChunks (fileSize : UInt64) : UInt32 :=
  ((fileSize + announcedChunkSize.toUInt64 - 1) / announcedChunkSize.toUInt64).toUInt32

/-- The same formula for a chunk size of any value. -/
def announcedCount (fileSize : UInt64) (chunkSize : UInt32) : UInt32 :=
  ((fileSize + chunkSize.toUInt64 - 1) / chunkSize.toUInt64).toUInt32

/-- The announced count is the number of chunks, as long as it fits in 32 bits and the sum does
not wrap. -/
theorem toNat_announcedCount {size : ℕ} {chunkSize : UInt32} (positive : 0 < chunkSize.toNat)
    (countable : (size + chunkSize.toNat - 1) / chunkSize.toNat < 2 ^ 32)
    (fits : size + chunkSize.toNat < 2 ^ 64) :
    (announcedCount (UInt64.ofNat size) chunkSize).toNat =
      (size + chunkSize.toNat - 1) / chunkSize.toNat := by
  have hchunk : chunkSize.toUInt64.toNat = chunkSize.toNat := UInt32.toNat_toUInt64 chunkSize
  have hsize : (UInt64.ofNat size).toNat = size := by
    rw [UInt64.toNat_ofNat']
    exact Nat.mod_eq_of_lt (by omega)
  have hsum : (UInt64.ofNat size + chunkSize.toUInt64).toNat = size + chunkSize.toNat := by
    rw [UInt64.toNat_add, hsize, hchunk]
    exact Nat.mod_eq_of_lt fits
  have hone : (1 : UInt64) ≤ UInt64.ofNat size + chunkSize.toUInt64 := by
    rw [UInt64.le_iff_toNat_le, hsum]
    exact Nat.le_add_left_of_le positive
  rw [announcedCount, UInt64.toNat_toUInt32, UInt64.toNat_div, UInt64.toNat_sub_of_le _ _ hone,
    hsum, hchunk]
  exact Nat.mod_eq_of_lt countable

/-- A file whose chunks can be counted in 32 bits is far from the end of `size_t`. -/
theorem add_lt_of_fits {size : ℕ}
    (fits : (size + Chunker.kDefaultChunkSize - 1) / Chunker.kDefaultChunkSize < 2 ^ 32) :
    size + Chunker.kDefaultChunkSize < 2 ^ 64 := by
  have hlt := (Nat.div_lt_iff_lt_mul (show 0 < Chunker.kDefaultChunkSize by decide)).mp fits
  simp only [Chunker.kDefaultChunkSize] at hlt ⊢
  omega

/-- With the default chunk size it need only fit in 32 bits. -/
theorem toNat_announcedChunks {size : ℕ}
    (fits : (size + Chunker.kDefaultChunkSize - 1) / Chunker.kDefaultChunkSize < 2 ^ 32) :
    (announcedChunks (UInt64.ofNat size)).toNat =
      (size + Chunker.kDefaultChunkSize - 1) / Chunker.kDefaultChunkSize :=
  @toNat_announcedCount size announcedChunkSize (by decide) fits (add_lt_of_fits fits)

/-- The handshake of a transfer. -/
def SendArgs.handshake (args : SendArgs) : Handshake where
  pin := args.pin
  fileSize := args.fileSize
  chunkSize := announcedChunkSize
  totalChunks := announcedChunks args.fileSize
  fileName := Handshake.nameField args.fileName

/-- For every file and chunk size, slicing cuts the file into its chunks, and their number is the
one that a handshake of the file with that chunk size announces. -/
theorem slice_announced {fileView : List UInt8} {chunkSize : ℕ} (positive : 1 ≤ chunkSize)
    (countable : (fileView.length + chunkSize - 1) / chunkSize < 2 ^ 32)
    (fits : fileView.length + chunkSize < 2 ^ 64) :
    Partition fileView chunkSize (Chunker.slice fileView chunkSize) ∧
      (∀ announced : UInt32, announced.toNat = chunkSize →
        (announcedCount (UInt64.ofNat fileView.length) announced).toNat =
          (Chunker.slice fileView chunkSize).length) ∧
      ∀ args : SendArgs, args.fileSize = UInt64.ofNat fileView.length →
        args.handshake.chunkSize.toNat = chunkSize →
          args.handshake.totalChunks.toNat = (Chunker.slice fileView chunkSize).length := by
  have hpartition := Chunker.partition_slice positive countable fits
  have hagree (announced : UInt32) (same : announced.toNat = chunkSize) :
      (announcedCount (UInt64.ofNat fileView.length) announced).toNat =
        (Chunker.slice fileView chunkSize).length := by
    subst same
    rw [hpartition.count]
    exact toNat_announcedCount positive countable fits
  refine ⟨hpartition, hagree, fun args hsize hchunk => ?_⟩
  rw [← hagree args.handshake.chunkSize hchunk, ← hsize]
  rfl

/-- Five bytes in chunks of two, and in chunks of the size that `sendFile` announces. -/
theorem slice_announced_fiveBytes :
    Partition [1, 2, 3, 4, 5] 2 (Chunker.slice [1, 2, 3, 4, 5] 2) ∧
      ∀ args : SendArgs, args.fileSize = 5 →
        args.handshake.totalChunks.toNat =
          (Chunker.slice [1, 2, 3, 4, 5] Chunker.kDefaultChunkSize).length := by
  have hchunk : announcedChunkSize.toNat = Chunker.kDefaultChunkSize := by decide
  refine ⟨(@slice_announced [1, 2, 3, 4, 5] 2 (by decide) (by decide) (by decide)).1, ?_⟩
  intro args hsize
  exact (@slice_announced [1, 2, 3, 4, 5] Chunker.kDefaultChunkSize (by decide) (by decide)
    (by decide)).2.2 args hsize hchunk

namespace SendJob

/-- What the loop of `sendFile` captures for a chunk. -/
def ofChunk (fileView : Span) (strategy : Strategy) (chunk : Chunk) : SendJob where
  strategy := strategy
  chunkId := chunk.id
  size := chunk.payloadSize
  crc32 := chunk.crc32
  data := ⟨fileView.mapping, fileView.offset + chunk.offset, chunk.payloadSize.toNat⟩

/-- The span of a chunk over the mapped file reads the chunk. -/
theorem read_ofChunk {view : Mapping} {fileView : Span} (whole : fileView.mapping = view.serial)
    (front : fileView.offset = 0) (strategy : Strategy) {i : ℕ}
    (inside : i < (Chunker.totalChunks view.bytes.length Chunker.kDefaultChunkSize).toNat) :
    (ofChunk fileView strategy (Chunker.chunkAt view.bytes Chunker.kDefaultChunkSize i)).data.read
        (some view) =
      some (Chunker.chunkAt view.bytes Chunker.kDefaultChunkSize i).data := by
  have hpositive : 0 < Chunker.kDefaultChunkSize := by decide
  have hsize :=
    @Chunker.toNat_chunkAt_payloadSize view.bytes Chunker.kDefaultChunkSize i (by decide)
  have hpos := Chunker.chunkLength_pos hpositive inside
  have hend := Chunker.chunkEnd_le hpositive inside
  rw [Span.read, if_neg (by simp only [ofChunk, hsize]; omega)]
  simp only [ofChunk, hsize, front, Nat.zero_add]
  rw [if_pos ⟨whole.symm, hend⟩]
  rfl

/-- The compressed bytes of a chunk. -/
def compressed (codecs : CodecLibrary) (job : SendJob) (input : List UInt8) :
    Option (List UInt8) :=
  SmartCompressor.compress codecs input
    (SmartCompressor.getCompressBound codecs job.size.toNat job.strategy) job.strategy

/-- The compressed bytes that the task of a job encrypts, over the mapped file. -/
def plaintext (codecs : CodecLibrary) (view : Mapping) (job : SendJob) : Option (List UInt8) :=
  (job.data.read (some view)).bind (job.compressed codecs)

/-- The header for an encrypted payload. -/
def header (job : SendJob) (encrypted : List UInt8) : ChunkWireHeader where
  chunkId := job.chunkId
  compressedSize := UInt32.ofNat encrypted.length
  originalSize := job.size
  crc32 := job.crc32
  compressStra := job.strategy.toByte

/-- The message for an encrypted payload. The source resizes the buffer once more
at the end, to the size it already has. -/
def wireBuffer (job : SendJob) (encrypted : List UInt8) : List UInt8 :=
  (job.header encrypted).encode ++ encrypted

end SendJob

/-- A file and the strategy its chunks are compressed with. -/
structure SourceFile where
  contents : List UInt8
  strategy : Strategy

namespace SourceFile

/-- The number of chunks the file is cut into. -/
def chunkCount (file : SourceFile) : ℕ :=
  (Chunker.totalChunks file.contents.length Chunker.kDefaultChunkSize).toNat

/-- The bytes of the chunk with an index. -/
def chunk (file : SourceFile) (i : ℕ) : List UInt8 :=
  (Chunker.chunkAt file.contents Chunker.kDefaultChunkSize i).data

/-- The chunk with an index, compressed. -/
def packed (codecs : CodecLibrary) (file : SourceFile) (i : ℕ) : Option (List UInt8) :=
  SmartCompressor.compress codecs (file.chunk i)
    (SmartCompressor.getCompressBound codecs (file.chunk i).length file.strategy) file.strategy

/-- The job of the chunk with an index, over a view of the file. -/
def job (file : SourceFile) (serial : ℕ) (i : ℕ) : SendJob :=
  SendJob.ofChunk ⟨serial, 0, file.contents.length⟩ file.strategy
    (Chunker.chunkAt file.contents Chunker.kDefaultChunkSize i)

theorem job_chunkId (file : SourceFile) (serial i : ℕ) :
    (file.job serial i).chunkId = UInt32.ofNat i := rfl

theorem toNat_job_chunkId {file : SourceFile} (serial : ℕ) {i : ℕ} (inside : i < file.chunkCount) :
    (file.job serial i).chunkId.toNat = i :=
  Chunker.toNat_chunkAt_id inside

theorem length_chunk {file : SourceFile} {i : ℕ} (inside : i < file.chunkCount) :
    (file.chunk i).length =
      Chunker.chunkLength file.contents.length Chunker.kDefaultChunkSize i :=
  Chunker.length_chunkAt_data (by decide) inside

/-- The task of a chunk encrypts the compressed chunk. -/
theorem plaintext_job {codecs : CodecLibrary} {file : SourceFile} (serial : ℕ) {i : ℕ}
    (inside : i < file.chunkCount) :
    (file.job serial i).plaintext codecs ⟨serial, file.contents⟩ = file.packed codecs i := by
  have hread : (file.job serial i).data.read (some ⟨serial, file.contents⟩) =
      some (file.chunk i) :=
    @SendJob.read_ofChunk ⟨serial, file.contents⟩ ⟨serial, 0, file.contents.length⟩ rfl rfl
      file.strategy i inside
  have hsize : (file.job serial i).size.toNat = (file.chunk i).length := by
    rw [length_chunk inside]
    exact Chunker.toNat_chunkAt_payloadSize i (by decide)
  rw [SendJob.plaintext, hread, Option.bind_some, SendJob.compressed, hsize]
  rfl

variable (P : Platform)

/-- The payload that the chunk with an index is sent with under a key. -/
def sealedChunk (file : SourceFile) (key : List UInt8) (i : ℕ) : Option (List UInt8) :=
  (file.packed P.codecs i).bind fun bytes => Crypto.encrypt P.ssl bytes key (UInt32.ofNat i)

/-- The message that the chunk with an index is sent with under a key. -/
def message (file : SourceFile) (key : List UInt8) (i : ℕ) : Option (List UInt8) :=
  (file.sealedChunk P key i).map (file.job 0 i).wireBuffer

end SourceFile

/-- Whether a task is a chunk task of the sender that has not returned. -/
def Task.isSending : Task → Bool
  | .sendChunk _ .sent => false
  | .sendChunk _ .failed => false
  | .sendChunk _ _ => true
  | _ => false

namespace Endpoint

variable (P : Platform)

/-- One step of a chunk task. Every exception is caught inside the task, which
then neither counts its chunk nor sends it. -/
def sendChunkTask (job : SendJob) (pc : SendPc) (ok : Bool) (w : Endpoint) :
    Option (SendPc × Endpoint) :=
  match pc with
  | .compress =>
    match job.data.read w.fileMapper with
    | none => some (.compress, w.crash)
    | some input =>
      match job.compressed P.codecs input with
      | some bytes => if ok then some (.encrypt bytes, w) else some (.failed, w)
      | none => some (.failed, w)
  | .encrypt bytes =>
    let called :=
      { w with encryptCalls := w.encryptCalls ++ [⟨w.aesKey, Crypto.iv job.chunkId, bytes⟩] }
    match Crypto.encrypt P.ssl bytes w.aesKey job.chunkId with
    | some encrypted =>
      if ok then some (.send (job.wireBuffer encrypted), called) else some (.failed, called)
    | none => some (.failed, called)
  | .send wireBuffer =>
    if ok then some (.count, w.sendChunk wireBuffer (job.chunkId % 4)) else some (.failed, w)
  | .count => some (.addBytes, { w with chunksSent := w.chunksSent + 1 })
  | .addBytes =>
    some (.sent, { w with metrics := w.metrics.map fun m => m.addBytes job.size.toUInt64 })
  | .sent => none
  | .failed => none

/-- Whether a chunk is skipped because the acknowledged bit field has it. -/
def skips (w : Endpoint) (chunk : Chunk) : Bool :=
  w.resumeBitfield.getD chunk.id.toNat false

/-- One step of the thread that called `sendFile` or `recvFile`. A loop that waits
has no step until its condition changes. -/
def mainThread (strategy : Strategy) (waitSnd : UInt32 → Int) (w : Endpoint) :
    Option Endpoint :=
  match w.main with
  | .deriveKey args =>
    some { w with aesKey := Crypto.deriveKey P.ssl args.pin, main := .sendHandshake args }
  | .sendHandshake args =>
    some { w.sendChunk args.handshake.encode 0 with main := .waitAck args }
  | .waitAck args =>
    if w.handshakeAcked then some { w with main := .checkRejected args } else none
  | .checkRejected args =>
    if w.handshakeRejected then some { w with main := .returned }
    else some { w with main := .slice args }
  | .slice args =>
    match args.fileView.read w.fileMapper with
    | none => some w.crash
    | some bytes =>
      let chunks := Chunker.slice bytes Chunker.kDefaultChunkSize
      some { w with main := .submit args strategy (UInt32.ofNat chunks.length) chunks }
  | .submit _ _ total [] => some { w with main := .drain total }
  | .submit args strategy total (chunk :: rest) =>
    if w.skips chunk then
      some { w with chunksSent := w.chunksSent + 1, main := .submit args strategy total rest }
    else if waitSnd 0 > 32000 then none
    else
      some
        { w.submit (.sendChunk (SendJob.ofChunk args.fileView strategy chunk) .compress) with
          main := .submit args strategy total rest }
  | .drain total =>
    if w.chunksSent < total then some w.reportProgress
    else
      some
        { w with
          reports := if w.metrics.isSome && w.onProgress then w.reports ++ [100] else w.reports
          main := .collect }
  | .collect => if w.tasks.any Task.isSending then none else some { w with main := .returned }
  | .receiving => if w.transComplete then some { w with main := .returned } else none
  | .returned => none

/-- `sendFile` up to the start of the network thread. Mapping an empty file fails
with an exception, so nothing is sent for one. -/
def sendFile (fileName contents : List UInt8) (pin : UInt32) (onProgress : Bool)
    (disk : List Path) : Option Endpoint :=
  if contents = [] then none
  else
    some
      { fileMapper := some ⟨2, contents⟩
        metrics := some { object := 1, totalBytes := UInt64.ofNat contents.length }
        onProgress := onProgress
        disk := disk
        nextSerial := 3
        main := .deriveKey
          { pin := pin
            fileName := fileName
            fileSize := UInt64.ofNat contents.length
            fileView := ⟨2, 0, contents.length⟩ } }

section

variable {fileName contents : List UInt8} {pin : UInt32} {onProgress : Bool} {disk : List Path}
  {start : Endpoint}

theorem ne_nil_of_sendFile
    (opened : sendFile fileName contents pin onProgress disk = some start) : contents ≠ [] := by
  rw [sendFile, Option.ite_none_left_eq_some] at opened
  exact opened.1

/-- A session starts without frames. -/
theorem outbox_of_sendFile
    (opened : sendFile fileName contents pin onProgress disk = some start) : start.outbox = [] := by
  rw [sendFile, Option.ite_none_left_eq_some] at opened
  rw [← Option.some.inj opened.2]

end

end Endpoint

end Sxaint.Net
