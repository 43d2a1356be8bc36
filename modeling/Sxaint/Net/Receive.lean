/-
# Handling incoming messages

`handleRecv` and what it starts. The network thread decodes each message and
either answers it itself or queues a task; the two kinds of tasks are given as
step functions on the program counter and the session. The flag `ok` of a step
is the outcome of the operating system call made in it, where there is one that
can fail with an exception.

There is one dispatcher for both roles of a session.
-/

import Sxaint.Net.Session

namespace Sxaint.Net

open Sxaint.Core

namespace Endpoint

variable (P : Platform)

/-- An acknowledgement: the announced count, then the packed bits. -/
def ackMessage (totalChunks : UInt32) (packedBits : List UInt8) : List UInt8 :=
  (HandshakeAck.mk totalChunks).encode ++ packedBits

/-- The file name to try after a collision. -/
def numberedName (stem ext : List UInt8) (counter : ℕ) : List UInt8 :=
  stem ++ [0x20, 0x28] ++ Crypto.toDecimal counter ++ [0x29] ++ ext

/-- `std::filesystem::exists`. -/
def fileExists (w : Endpoint) (path : Path) : Bool :=
  w.disk.any fun entry => P.host.sameFile entry.native path.native

/-- `target_path` for the name a handshake carries, with the stem and extension
that a collision needs. Each of the conversions may throw. -/
def targetPath (outputDir : Path) (name : List UInt8) :
    Option (List UInt8 × List UInt8 × Path) := do
  let native ← decodeUtf8 name
  let target := outputDir.append ⟨native⟩
  let stem ← P.host.toNarrow target.stem
  let ext ← P.host.toNarrow target.extension
  return (stem, ext, target)

/-- One step of `processHandshake`. The function holds `manifest_mutex_` during
`enter` only. -/
def processHandshake (hs : Handshake) (pc : HandshakePc) (ok : Bool) (w : Endpoint) :
    Option (HandshakePc × Endpoint) :=
  match pc with
  | .enter =>
    if w.expectedChunks ≠ 0 then
      match w.currentManifest.packBitfield with
      | none => some (.enter, w.crash)
      | some packed => some (.answered, w.sendChunk (ackMessage hs.totalChunks packed) 0)
    else if hs.pin ≠ w.expectedPin then
      some (.answered, w.sendChunk handshakeRejectMessage 0)
    else some (.prepare, { w with expectedChunks := hs.totalChunks })
  | .prepare =>
    let keyed := { w with aesKey := Crypto.deriveKey P.ssl w.expectedPin }
    match hs.fileNameText with
    | none => some (.prepare, keyed.crash)
    | some name =>
      some (.convert,
        { keyed with
          currentFilename := name
          metrics := some { object := w.nextSerial, totalBytes := hs.fileSize }
          nextSerial := w.nextSerial + 1 })
  | .convert =>
    match targetPath P w.outputDir w.currentFilename with
    | some (stem, ext, target) => some (.rename stem ext 1 target, w)
    | none => some (.threw, w)
  | .rename stem ext counter target =>
    if !ok then some (.threw, w)
    else if fileExists P w target then
      match P.host.ofNarrow (numberedName stem ext counter) with
      | some native =>
        some (.rename stem ext (counter + 1) (w.outputDir.append ⟨native⟩), w)
      | none => some (.threw, w)
    else
      match P.host.toNarrow target.filename with
      | some name => some (.describe target, { w with currentFilename := name })
      | none => some (.threw, w)
  | .describe target =>
    some (.allot target,
      { w with
        currentManifest :=
          { w.currentManifest with
            fileHash := w.currentFilename
            fileSize := hs.fileSize
            chunkSize := hs.chunkSize
            totalChunks := hs.totalChunks } })
  | .allot target =>
    some (.resetCount target,
      { w with
        currentManifest :=
          { w.currentManifest with
            completedChunks := List.replicate hs.totalChunks.toNat false } })
  | .resetCount target => some (.preallocate target, { w with chunksRecv := 0 })
  | .preallocate target =>
    if ok then some (.mapWrite target, { w with disk := w.disk ++ [target] })
    else some (.threw, w)
  | .mapWrite _ =>
    -- `map_write` unmaps the old view before it tries to map the new one
    if ok then
      some (.publish ⟨w.nextSerial, 0, hs.fileSize.toNat⟩,
        { w with
          fileMapper := some ⟨w.nextSerial, List.replicate hs.fileSize.toNat 0⟩
          nextSerial := w.nextSerial + 1 })
    else some (.threw, { w with fileMapper := none })
  | .publish view => some (.acknowledge, { w with writeView := view })
  | .acknowledge =>
    match w.currentManifest.packBitfield with
    | none => some (.acknowledge, w.crash)
    | some packed => some (.accepted, w.sendChunk (ackMessage hs.totalChunks packed) 0)
  | .answered => none
  | .accepted => none
  | .threw => none

/-- Where a chunk starts in the view. Both factors fit in 32 and 22 bits, so the
product fits in `size_t`. -/
def chunkOffset (chunkId : UInt32) : ℕ :=
  chunkId.toNat * Chunker.kDefaultChunkSize

/-- One step of `processChunk`. -/
def processChunk (header : ChunkWireHeader) (payload : List UInt8) (pc : ChunkPc)
    (w : Endpoint) : Option (ChunkPc × Endpoint) :=
  match pc with
  | .enter =>
    if w.writeView.size = 0 then some (.dropped, w)
    else if chunkOffset header.chunkId + header.originalSize.toNat > w.writeView.size then
      some (.dropped, w)
    else
      some (.decrypt
        ⟨w.writeView.mapping, w.writeView.offset + chunkOffset header.chunkId,
          header.originalSize.toNat⟩, w)
  | .decrypt target =>
    match Crypto.decrypt P.ssl payload w.aesKey header.chunkId with
    | none => some (.dropped, w)
    | some decrypted => some (.decompress target decrypted, w)
  | .decompress target decrypted =>
    match target.read w.fileMapper with
    | none => some (.decompress target decrypted, w.crash)
    | some held =>
      let result := SmartCompressor.decompress P.codecs decrypted held
        (Strategy.ofByte header.compressStra)
      let written := { w with fileMapper := target.write result.2 w.fileMapper }
      match result.1 with
      | none => some (.dropped, written)
      | some _ => some (.check target, written)
  | .check target =>
    match target.read w.fileMapper with
    | none => some (.check target, w.crash)
    | some held =>
      if Hasher.crc32 held ≠ header.crc32 then some (.dropped, w) else some (.mark, w)
  | .mark =>
    if header.chunkId.toNat < w.currentManifest.completedChunks.length then
      some (.addBytes,
        { w with
          currentManifest :=
            { w.currentManifest with
              completedChunks :=
                w.currentManifest.completedChunks.set header.chunkId.toNat true } })
    else some (.addBytes, w.stray)
  | .addBytes =>
    some (.count,
      { w with metrics := w.metrics.map fun m => m.addBytes header.originalSize.toUInt64 })
  | .count =>
    some (.report (w.chunksRecv + 1), { w with chunksRecv := w.chunksRecv + 1 })
  | .report received => some (.compare received, w.reportProgress)
  | .compare received =>
    if received = w.expectedChunks then
      some (.stored received true, { w with transComplete := true })
    else some (.stored received false, w)
  | .dropped => none
  | .stored _ _ => none

/-- `processHandshakeACk`, up to the store that publishes the bits. -/
def processHandshakeACk (data : List UInt8) (w : Endpoint) : Endpoint :=
  if w.handshakeAcked then w
  else if data.length < HandshakeAck.size then w
  else
    let ack := HandshakeAck.decode data
    let packedBitfield := data.drop HandshakeAck.size
    match BitField.readBits packedBitfield (List.range ack.totalChunks.toNat) with
    | none => w.crash
    | some bits => { w with resumeBitfield := bits, net := .publishAcked }

/-- `handleRecv` for one message. -/
def handleRecv (data : List UInt8) (w : Endpoint) : Endpoint :=
  match data with
  | [] => w
  | type :: _ =>
    match MessageType.ofByte type with
    | some .handshake =>
      if data.length ≥ Handshake.size then
        w.submit (.handshake (Handshake.decode data) .enter)
      else w
    | some .handshakeAck => processHandshakeACk data w
    | some .handshakeReject => { w with handshakeRejected := true, net := .publishAcked }
    | some .chunkData =>
      if data.length ≥ ChunkWireHeader.size then
        let header := ChunkWireHeader.decode data
        if data.length < ChunkWireHeader.size + header.compressedSize.toNat then w
        else
          w.submit (.recvChunk header
            (Buffer.block data ChunkWireHeader.size header.compressedSize.toNat) .enter)
      else w
    | none => w

/-- `recvFile` up to the first message: the directory and the pin are stored before the socket is
opened. The disk is as `create_directories` leaves it, with the directory on it. The callback is
taken and not stored. -/
def recvFile (outputDir : Path) (expectedPin : UInt32) (_onProgress : Bool)
    (disk : List Path) : Endpoint :=
  { outputDir := outputDir
    expectedPin := expectedPin
    disk := disk
    main := .receiving }

end Endpoint

end Sxaint.Net
