/-
# The messages of a transfer

What a sender transmits for a file: the announcement, then one message for each chunk.
A receiver takes each of them apart into what the sender put together: the announcement
fits the file, the header of a chunk describes it, and its payload opens to the chunk's
compressed bytes.
-/

import Mathlib.Data.List.Perm.Subperm
import Sxaint.Net.Integrity
import Sxaint.Net.SenderRole

namespace Sxaint.Net

open Sxaint.Core Transition

namespace SourceFile

variable {P : Platform} {file : SourceFile}

/-- The file has a byte, and the number of its chunks fits in 32 bits. -/
structure Sendable (file : SourceFile) : Prop where
  nonempty : file.contents ≠ []
  fits : (file.contents.length + Chunker.kDefaultChunkSize - 1) / Chunker.kDefaultChunkSize <
    2 ^ 32

/-- What the transfer relies on the libraries for. -/
structure Supported (P : Platform) (file : SourceFile) : Prop where
  lawful : P.ssl.Lawful
  inverts : SmartCompressor.Inverts P.codecs Chunker.kDefaultChunkSize file.strategy
  bounded : SmartCompressor.Bounded P.codecs Chunker.kDefaultChunkSize file.strategy

theorem chunkCount_eq (sendable : file.Sendable) :
    file.chunkCount = (file.contents.length + Chunker.kDefaultChunkSize - 1) /
      Chunker.kDefaultChunkSize :=
  Chunker.toNat_totalChunks (by decide) sendable.fits (by decide)

theorem chunkCount_pos (sendable : file.Sendable) : 0 < file.chunkCount := by
  have hpos := List.length_pos_iff.mpr sendable.nonempty
  rw [chunkCount_eq sendable]
  exact Nat.div_pos (by omega) (by decide)

/-- The handshake that announces the file. -/
def announcement (file : SourceFile) (pin : UInt32) (fileName : List UInt8) : Handshake :=
  (Endpoint.SetUp.ofFile fileName file.contents pin []).args.handshake

/-- The header that the chunk with an index is sent with. -/
def header (file : SourceFile) (i : ℕ) (payload : List UInt8) : ChunkWireHeader :=
  (file.job 0 i).header payload

/-- All messages of a transfer. -/
def transmission (P : Platform) (file : SourceFile) (pin : UInt32) (fileName : List UInt8) :
    List (List UInt8) :=
  (file.announcement pin fileName).encode ::
    (List.range file.chunkCount).filterMap (file.message P (Crypto.deriveKey P.ssl pin))

/-- A chunk message as the sender made it for a chunk. -/
structure Sent (P : Platform) (file : SourceFile) (key : List UInt8) (i : ℕ)
    (message : ChunkWireHeader × List UInt8) : Prop where
  inside : i < file.chunkCount
  header : message.1 = file.header i message.2
  sealed : file.sealedChunk P key i = some message.2

theorem announces_announcement (sendable : file.Sendable) (pin : UInt32)
    (fileName : List UInt8) : file.Announces (file.announcement pin fileName) := by
  have hsmall := add_lt_of_fits sendable.fits
  constructor
  · show (UInt64.ofNat file.contents.length).toNat = file.contents.length
    rw [UInt64.toNat_ofNat']
    exact Nat.mod_eq_of_lt (by omega)
  · rw [chunkCount_eq sendable]
    exact toNat_announcedChunks sendable.fits

theorem handshakeIn_announcement (pin : UInt32) (fileName : List UInt8) :
    Endpoint.handshakeIn (file.announcement pin fileName).encode =
      some (file.announcement pin fileName) :=
  Endpoint.handshakeIn_encode (Handshake.length_nameField fileName)

theorem fileNameText_announcement (pin : UInt32) (fileName : List UInt8) :
    (file.announcement pin fileName).fileNameText ≠ none := by
  have hzero : 0 ∈ (file.announcement pin fileName).fileName :=
    Handshake.zero_mem_nameField fileName
  rw [Handshake.fileNameText, if_pos hzero]
  exact Option.some_ne_none _

section Sent

variable {key : List UInt8} {i : ℕ} {message : ChunkWireHeader × List UInt8}

theorem Sent.toNat_chunkId (sent : file.Sent P key i message) : message.1.chunkId.toNat = i := by
  rw [sent.header]
  exact toNat_job_chunkId 0 sent.inside

theorem Sent.chunkId (sent : file.Sent P key i message) : message.1.chunkId = UInt32.ofNat i := by
  rw [sent.header]
  rfl

theorem Sent.toNat_originalSize (sent : file.Sent P key i message) :
    message.1.originalSize.toNat = (file.chunk i).length := by
  rw [sent.header, length_chunk sent.inside]
  exact Chunker.toNat_chunkAt_payloadSize i (by decide)

theorem Sent.crc32 (sent : file.Sent P key i message) :
    message.1.crc32 = Hasher.crc32 (file.chunk i) := by
  rw [sent.header]
  rfl

theorem Sent.describes (sent : file.Sent P key i message) : file.Describes message.1 := by
  refine ⟨sent.toNat_chunkId ▸ sent.inside, ?_, ?_⟩
  · rw [sent.toNat_chunkId]
    exact sent.toNat_originalSize
  · rw [sent.header]
    rfl

theorem Sent.authentic (sent : file.Sent P key i message) : file.Authentic P key message := by
  intro _
  rw [sent.toNat_chunkId]
  exact ⟨sent.inside, sent.sealed⟩

/-- The target of a chunk as it was sent lies inside the file. -/
theorem Sent.inside_file (sent : file.Sent P key i message) :
    Endpoint.chunkOffset message.1.chunkId + message.1.originalSize.toNat ≤
      file.contents.length := by
  rw [Endpoint.chunkOffset, sent.toNat_chunkId, sent.toNat_originalSize, length_chunk sent.inside]
  exact Chunker.chunkEnd_le (by decide) sent.inside

/-- The payload opens to bytes that restore the chunk. -/
theorem Sent.opens (supported : file.Supported P) (sent : file.Sent P key i message) :
    ∃ packed, Crypto.decrypt P.ssl message.2 key message.1.chunkId = some packed ∧
      ∀ output : List UInt8, output.length = (file.chunk i).length →
        SmartCompressor.decompress P.codecs packed output
            (Strategy.ofByte message.1.compressStra) =
          (some (file.chunk i).length, file.chunk i) := by
  obtain ⟨packed, hpacked, -, hrestores⟩ := packed_isSome supported.inverts sent.inside
  obtain ⟨payload, hencrypt, -, hopen⟩ :=
    Crypto.decrypt_encrypt supported.lawful packed key (UInt32.ofNat i)
  have hsealed := sent.sealed
  rw [sealedChunk, hpacked, Option.bind_some, hencrypt] at hsealed
  refine ⟨packed, ?_, ?_⟩
  · rw [← Option.some.inj hsealed, sent.chunkId]
    exact hopen
  · rw [sent.describes.2.2, Strategy.ofByte_toByte]
    exact hrestores

end Sent

/-- Every chunk has a message, and a receiver takes it apart again. -/
theorem exists_message (supported : file.Supported P) (key : List UInt8) {i : ℕ}
    (inside : i < file.chunkCount) :
    ∃ message, file.Sent P key i message ∧
      file.message P key i = some (message.1.encode ++ message.2) ∧
      Endpoint.chunkIn (message.1.encode ++ message.2) = some message := by
  obtain ⟨packed, hpacked, hbound, -⟩ := packed_isSome supported.inverts inside
  obtain ⟨payload, hencrypt, hlength, -⟩ :=
    Crypto.decrypt_encrypt supported.lawful packed key (UInt32.ofNat i)
  have hsealed : file.sealedChunk P key i = some payload := by
    rw [sealedChunk, hpacked, Option.bind_some, hencrypt]
  have hchunk : (file.chunk i).length ≤ Chunker.kDefaultChunkSize := by
    rw [length_chunk inside]
    exact Chunker.chunkLength_le _ _ _
  have hsize : (file.header i payload).compressedSize.toNat = payload.length := by
    have := supported.bounded _ hchunk
    show (UInt32.ofNat payload.length).toNat = payload.length
    rw [UInt32.toNat_ofNat']
    exact Nat.mod_eq_of_lt (by omega)
  refine ⟨(file.header i payload, payload), ⟨inside, rfl, hsealed⟩, ?_,
    Endpoint.chunkIn_encode hsize⟩
  rw [message, hsealed]
  rfl

/-- What is transmitted is the announcement or a chunk as it was sent. -/
theorem mem_transmission (supported : file.Supported P) {pin : UInt32}
    {fileName data : List UInt8} (mem : data ∈ file.transmission P pin fileName) :
    data = (file.announcement pin fileName).encode ∨
      ∃ i message, file.Sent P (Crypto.deriveKey P.ssl pin) i message ∧
        data = message.1.encode ++ message.2 ∧ Endpoint.chunkIn data = some message := by
  rcases List.mem_cons.mp mem with hfirst | hrest
  · exact .inl hfirst
  · obtain ⟨i, hi, hdata⟩ := List.mem_filterMap.mp hrest
    obtain ⟨message, hsent, hmessage, hcarried⟩ :=
      exists_message supported (Crypto.deriveKey P.ssl pin) (List.mem_range.mp hi)
    obtain rfl := Option.some.inj (hmessage.symm.trans hdata)
    exact .inr ⟨i, message, hsent, rfl, hcarried⟩

/-- Every chunk is transmitted. -/
theorem exists_mem_transmission (supported : file.Supported P) (pin : UInt32)
    (fileName : List UInt8) {i : ℕ} (inside : i < file.chunkCount) :
    ∃ message, file.Sent P (Crypto.deriveKey P.ssl pin) i message ∧
      message.1.encode ++ message.2 ∈ file.transmission P pin fileName := by
  obtain ⟨message, hsent, hmessage, -⟩ :=
    exists_message supported (Crypto.deriveKey P.ssl pin) inside
  exact ⟨message, hsent, List.mem_cons_of_mem _
    (List.mem_filterMap.mpr ⟨i, List.mem_range.mpr inside, hmessage⟩)⟩

theorem length_transmission (supported : file.Supported P) (pin : UInt32)
    (fileName : List UInt8) :
    (file.transmission P pin fileName).length = file.chunkCount + 1 := by
  have hall : ((List.range file.chunkCount).filterMap
      (file.message P (Crypto.deriveKey P.ssl pin))).length =
        (List.range file.chunkCount).length := by
    rw [List.filterMap_length_eq_length]
    intro i hi
    obtain ⟨_, -, hmessage, -⟩ :=
      exists_message supported (Crypto.deriveKey P.ssl pin) (List.mem_range.mp hi)
    rw [hmessage]
    rfl
  rw [transmission, List.length_cons, hall, List.length_range]

/-- The announcement is transmitted once. -/
theorem count_announcement (supported : file.Supported P) (pin : UInt32)
    (fileName : List UInt8) :
    (file.transmission P pin fileName).count (file.announcement pin fileName).encode = 1 := by
  rw [transmission, List.count_cons_self, List.count_eq_zero_of_not_mem]
  intro hmem
  obtain ⟨i, hi, hdata⟩ := List.mem_filterMap.mp hmem
  obtain ⟨message, -, hmessage, hcarried⟩ :=
    exists_message supported (Crypto.deriveKey P.ssl pin) (List.mem_range.mp hi)
  rw [Option.some.inj (hmessage.symm.trans hdata)] at hcarried
  have hnone := Endpoint.handshakeIn_of_chunkIn hcarried
  rw [handshakeIn_announcement] at hnone
  cases hnone

end SourceFile

end Sxaint.Net
