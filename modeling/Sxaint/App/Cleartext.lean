/-
# What is sent in the clear

The handshake and the headers of the chunks go over the wire as they are; of a payload only
its length shows. Two transfers that differ in their secrets alone, the pin and the contents,
look the same exactly if they use one pin and the chunks they send have the same checksums: the
handshake carries the pin and each header the checksum of its chunk.
-/

import Sxaint.App.SendQueue
import Sxaint.Net.Gating
import Sxaint.Net.Outbox

namespace Sxaint.App

open Sxaint.Core Sxaint.Net Sxaint.Net.Endpoint Transition

/-- What shows of a message: all of it, or the header of a chunk and the length of its
payload. -/
def cleartext (data : List UInt8) : List UInt8 × ℕ :=
  if messageKind data = some .chunkData then
    (data.take ChunkWireHeader.size, data.length - ChunkWireHeader.size)
  else (data, 0)

theorem cleartext_handshake (hs : Handshake) : cleartext hs.encode = (hs.encode, 0) := by
  rw [cleartext, if_neg (by simp [messageKind, Handshake.encode])]

theorem cleartext_chunk (header : ChunkWireHeader) (payload : List UInt8) :
    cleartext (header.encode ++ payload) = (header.encode, payload.length) := by
  rw [cleartext, if_pos (by simp [messageKind, ChunkWireHeader.encode]),
    List.take_left' (ChunkWireHeader.length_encode header), List.length_append,
    ChunkWireHeader.length_encode, Nat.add_sub_cancel_left]

theorem encode_ne_encode (hs : Handshake) (header : ChunkWireHeader) :
    hs.encode ≠ header.encode := by
  intro hsame
  have hkind := congrArg List.head? hsame
  simp [Handshake.encode, ChunkWireHeader.encode] at hkind
  cases hkind

namespace Sending

variable {P : Platform} {pin : UInt32} {sending : Sending} {final : Endpoint}

/-- A session for the file that looks at no handshake has ended, with every chunk sent that is
not skipped. -/
structure Transmits (P : Platform) (pin : UInt32) (sending : Sending) (final : Endpoint) :
    Prop where
  ran : ∃ onProgress disk start events,
    Endpoint.sendFile sending.fileName sending.contents pin onProgress disk = some start ∧
      (Endpoint.machine P start).RunUnder (fun w event => w.Serves sending.strategy event) events
        final
  returned : final.main = .returned
  accepted : final.handshakeRejected = false
  bits : final.resumeBitfield = sending.bits
  sent : ∀ task ∈ final.tasks, ∀ job ∈ task.job?, task = .sendChunk job .sent

theorem Transmits.ends (transmits : sending.Transmits P pin final) : sending.Ends P pin final := by
  obtain ⟨⟨onProgress, disk, start, events, opened, run⟩, hreturned, haccepted, hbits, hsent⟩ :=
    transmits
  refine ⟨⟨onProgress, disk, start, events, opened, run.mono ?_⟩, hreturned, haccepted, hbits,
    hsent⟩
  intro w event serves
  refine ⟨?_, serves.2⟩
  intro hs hentering
  rw [serves.1] at hentering
  cases hentering

/-- The messages of a transfer that skips what is acknowledged. -/
def messages (P : Platform) (pin : UInt32) (sending : Sending) : List (List UInt8) :=
  (sending.announcement pin sending.fileName).encode ::
    (missing sending.bits sending.chunkCount).filterMap
      (sending.message P (Crypto.deriveKey P.ssl pin))

theorem mem_missing {i : ℕ} : i ∈ missing sending.bits sending.chunkCount ↔ sending.Sends i := by
  rw [missing, List.mem_filter, List.mem_range, Sends, Bool.not_eq_true']

/-- A session that has ended has handed over these messages. -/
theorem Transmits.outbox_perm (transmits : sending.Transmits P pin final) :
    (final.outbox.map Prod.snd).Perm (sending.messages P pin) := by
  obtain ⟨onProgress, disk, start, events, opened, run⟩ := transmits.ran
  have hnonempty := Endpoint.ne_nil_of_sendFile opened
  obtain ⟨hsender, htransmitting⟩ := transmitting_run opened run
  have hjobs : final.jobs = missingJobs sending.toSourceFile sending.bits sending.chunkCount := by
    have hmain := hsender.main
    rw [transmits.returned] at hmain
    obtain ⟨-, -, ⟨hrejected, -⟩ | ⟨_, rfl, hjobs⟩⟩ := hmain
    · rw [transmits.accepted] at hrejected
      cases hrejected
    · have hslice : (SetUp.ofFile sending.fileName sending.contents pin disk).chunks =
          (List.range sending.chunkCount).map
            (Chunker.chunkAt sending.contents Chunker.kDefaultChunkSize) := if_neg hnonempty
      rw [hjobs, transmits.bits, hslice]
      exact ofChunks_eq_missingJobs _ _ (Nat.le_refl _)
  have hframes := frames_perm_of_sent htransmitting transmits.returned transmits.sent
  have hmessages : final.jobs.filterMap
      ((SetUp.ofFile sending.fileName sending.contents pin disk).message P) =
        (missing sending.bits sending.chunkCount).filterMap
          (sending.message P (Crypto.deriveKey P.ssl pin)) := by
    rw [hjobs, missingJobs, List.filterMap_map]
    apply List.filterMap_congr
    intro i hi
    rw [Function.comp_apply]
    exact message_job pin sending.fileName disk (mem_missing.mp hi).1
  rw [hmessages] at hframes
  exact hframes

/-- The message of a chunk that is sent. -/
theorem Transmits.exists_message (lawful : P.ssl.Lawful) (transmits : sending.Transmits P pin final)
    {i : ℕ} (sends : sending.Sends i) :
    ∃ bytes payload, sending.packed P.codecs i = some bytes ∧
      payload.length = bytes.length + 16 ∧
      sending.message P (Crypto.deriveKey P.ssl pin) i =
        some ((sending.header i payload).encode ++ payload) := by
  obtain ⟨bytes, hpacked, -⟩ := encrypted_of_ends transmits.ends sends
  obtain ⟨payload, hsealed, hlength, -⟩ :=
    Crypto.decrypt_encrypt lawful bytes (Crypto.deriveKey P.ssl pin) (UInt32.ofNat i)
  refine ⟨bytes, payload, hpacked, hlength, ?_⟩
  rw [SourceFile.message, SourceFile.sealedChunk, hpacked, Option.bind_some, hsealed]
  rfl

/-- Two transfers that agree in all but the pin and the contents. -/
structure Alike (P : Platform) (a b : Sending) : Prop where
  fileName : a.fileName = b.fileName
  fileSize : a.contents.length = b.contents.length
  strategy : a.strategy = b.strategy
  ack : a.bits = b.bits
  lengths : ∀ i, a.Sends i →
    (a.packed P.codecs i).map List.length = (b.packed P.codecs i).map List.length

/-- The chunks that are sent have the same checksums. -/
def SameChecksums (a b : Sending) : Prop :=
  ∀ i, a.Sends i → Hasher.crc32 (a.chunk i) = Hasher.crc32 (b.chunk i)

theorem Alike.sends_iff {a b : Sending} (alike : a.Alike P b) (i : ℕ) :
    a.Sends i ↔ b.Sends i := by
  rw [Sends, Sends, SourceFile.chunkCount, SourceFile.chunkCount, alike.fileSize, alike.ack]

/-- The headers of a chunk agree if its checksum does. -/
theorem Alike.header_eq {a b : Sending} (alike : a.Alike P b) {i : ℕ}
    (checksum : Hasher.crc32 (a.chunk i) = Hasher.crc32 (b.chunk i))
    {first second : List UInt8} (length : first.length = second.length) :
    a.header i first = b.header i second := by
  have hid : (a.job 0 i).chunkId = (b.job 0 i).chunkId := by
    rw [SourceFile.job_chunkId, SourceFile.job_chunkId]
  have hsize : (a.job 0 i).size = (b.job 0 i).size := by
    simp only [SourceFile.job, SendJob.ofChunk, Chunker.chunkAt, alike.fileSize]
  have hcrc : (a.job 0 i).crc32 = (b.job 0 i).crc32 := checksum
  have hstrategy : (a.job 0 i).strategy = (b.job 0 i).strategy := alike.strategy
  simp only [SourceFile.header, SendJob.header, length, hid, hsize, hcrc, hstrategy]

/-- What shows of two transfers that look alike is the same in each message. -/
theorem Alike.cleartext_message {a b : Sending} {w v : Endpoint} (lawful : P.ssl.Lawful)
    (first : a.Transmits P pin w) (second : b.Transmits P pin v) (alike : a.Alike P b)
    (same : a.SameChecksums b) :
    (a.messages P pin).map cleartext = (b.messages P pin).map cleartext := by
  have hannouncement : a.announcement pin a.fileName = b.announcement pin b.fileName := by
    simp only [SourceFile.announcement, SetUp.ofFile, alike.fileName, alike.fileSize]
  have hindices : missing a.bits a.chunkCount = missing b.bits b.chunkCount := by
    rw [alike.ack, SourceFile.chunkCount, SourceFile.chunkCount, alike.fileSize]
  rw [messages, messages, List.map_cons, List.map_cons, hannouncement, List.map_filterMap,
    List.map_filterMap, ← hindices]
  congr 1
  apply List.filterMap_congr
  intro i hi
  have hsends := mem_missing.mp hi
  obtain ⟨bytes, payload, hpacked, hlength, hmessage⟩ := first.exists_message lawful hsends
  obtain ⟨bytes', payload', hpacked', hlength', hmessage'⟩ :=
    second.exists_message lawful ((alike.sends_iff i).mp hsends)
  have hsize : payload.length = payload'.length := by
    have hbytes := alike.lengths i hsends
    rw [hpacked, hpacked', Option.map_some, Option.map_some] at hbytes
    rw [hlength, hlength', Option.some.inj hbytes]
  rw [hmessage, hmessage', Option.map_some, Option.map_some, cleartext_chunk, cleartext_chunk,
    alike.header_eq (same i hsends) hsize, hsize]

section Perm

variable {pin' : UInt32} {a b : Sending} {w v : Endpoint}

/-- Transfers with the same cleartext use one pin. -/
theorem pin_of_cleartext_perm (lawful : P.ssl.Lawful) (second : b.Transmits P pin' v)
    (perm : ((a.messages P pin).map cleartext).Perm ((b.messages P pin').map cleartext)) :
    pin = pin' := by
  have hmem : cleartext (a.announcement pin a.fileName).encode ∈
      (b.messages P pin').map cleartext :=
    perm.subset (List.mem_map_of_mem List.mem_cons_self)
  obtain ⟨data, hdata, hsame⟩ := List.mem_map.mp hmem
  rw [cleartext_handshake] at hsame
  rcases List.mem_cons.mp hdata with rfl | hchunk
  · rw [cleartext_handshake] at hsame
    have hdecode := congrArg Handshake.decode (Prod.ext_iff.mp hsame).1
    have hleft := @Handshake.decode_encode (a.announcement pin a.fileName)
      (Handshake.length_nameField a.fileName) []
    have hright := @Handshake.decode_encode (b.announcement pin' b.fileName)
      (Handshake.length_nameField b.fileName) []
    rw [List.append_nil] at hleft hright
    rw [hleft, hright] at hdecode
    exact (congrArg Handshake.pin hdecode).symm
  · obtain ⟨i, hi, hmessage⟩ := List.mem_filterMap.mp hchunk
    obtain ⟨-, payload, -, -, hsent⟩ := second.exists_message lawful (mem_missing.mp hi)
    obtain rfl := Option.some.inj (hsent.symm.trans hmessage)
    rw [cleartext_chunk] at hsame
    exact (encode_ne_encode _ _ (Prod.ext_iff.mp hsame).1.symm).elim

/-- Transfers with the same cleartext have the same checksums. -/
theorem checksums_of_cleartext_perm (lawful : P.ssl.Lawful) (first : a.Transmits P pin w)
    (second : b.Transmits P pin' v)
    (perm : ((a.messages P pin).map cleartext).Perm ((b.messages P pin').map cleartext)) :
    a.SameChecksums b := by
  intro i hsends
  obtain ⟨-, payload, -, -, hmessage⟩ := first.exists_message lawful hsends
  have hmem : cleartext ((a.header i payload).encode ++ payload) ∈
      (b.messages P pin').map cleartext := by
    apply perm.subset
    apply List.mem_map_of_mem
    exact List.mem_cons_of_mem _ (List.mem_filterMap.mpr ⟨i, mem_missing.mpr hsends, hmessage⟩)
  obtain ⟨data, hdata, hsame⟩ := List.mem_map.mp hmem
  rw [cleartext_chunk] at hsame
  rcases List.mem_cons.mp hdata with rfl | hchunk
  · rw [cleartext_handshake] at hsame
    exact (encode_ne_encode _ _ (Prod.ext_iff.mp hsame).1).elim
  · obtain ⟨j, hj, hmessage'⟩ := List.mem_filterMap.mp hchunk
    obtain ⟨-, payload', -, -, hsent⟩ := second.exists_message lawful (mem_missing.mp hj)
    obtain rfl := Option.some.inj (hsent.symm.trans hmessage')
    rw [cleartext_chunk] at hsame
    have hheader : b.header j payload' = a.header i payload := by
      have hdecode := congrArg ChunkWireHeader.decode (Prod.ext_iff.mp hsame).1
      have hleft := ChunkWireHeader.decode_encode (b.header j payload') []
      have hright := ChunkWireHeader.decode_encode (a.header i payload) []
      rw [List.append_nil] at hleft hright
      rw [hleft, hright] at hdecode
      exact hdecode
    -- the number of the chunk is in its header
    have hindex : j = i := by
      have hid := congrArg (fun header => header.chunkId.toNat) hheader
      have hleft := SourceFile.toNat_job_chunkId 0 (mem_missing.mp hj).1
      have hright := SourceFile.toNat_job_chunkId 0 hsends.1
      exact hleft.symm.trans (hid.trans hright)
    subst hindex
    exact (congrArg ChunkWireHeader.crc32 hheader).symm

/-- Two transfers that agree in all but their pins and contents show the same on the wire exactly
if the pins are the same and so are the checksums of the chunks they send. -/
theorem cleartext_perm_iff_pins (lawful : P.ssl.Lawful) (first : a.Transmits P pin w)
    (second : b.Transmits P pin' v) (alike : a.Alike P b) :
    ((w.outbox.map Prod.snd).map cleartext).Perm ((v.outbox.map Prod.snd).map cleartext) ↔
      pin = pin' ∧ a.SameChecksums b := by
  have hfirst := first.outbox_perm.map cleartext
  have hsecond := second.outbox_perm.map cleartext
  constructor
  · intro perm
    have hperm := hfirst.symm.trans (perm.trans hsecond)
    exact ⟨pin_of_cleartext_perm lawful second hperm,
      checksums_of_cleartext_perm lawful first second hperm⟩
  · rintro ⟨rfl, hsame⟩
    rw [alike.cleartext_message lawful first second hsame] at hfirst
    exact hfirst.trans hsecond.symm

end Perm

end Sending

/-- The session for a file of one byte has sent it. -/
theorem transmits_oneByteEntry :
    ∀ byte ∈ [65, 66], (oneByteEntry byte).1.Transmits KnownAnswers.platform 123456
      (oneByteEntry byte).2 := by
  intro byte hbyte
  rcases List.mem_pair.mp hbyte with rfl | rfl
  · refine ⟨⟨false, [], KnownAnswers.sender 65, KnownAnswers.sending, rfl, ?_⟩,
      by decide +kernel, by decide +kernel, by decide +kernel, by decide +kernel⟩
    exact Machine.runUnder_reached (by decide +kernel)
  · refine ⟨⟨false, [], KnownAnswers.sender 66, KnownAnswers.sending, rfl, ?_⟩,
      by decide +kernel, by decide +kernel, by decide +kernel, by decide +kernel⟩
    exact Machine.runUnder_reached (by decide +kernel)

theorem alike_oneByteEntry :
    (oneByteEntry 65).1.Alike KnownAnswers.platform (oneByteEntry 66).1 := by
  refine ⟨rfl, rfl, rfl, rfl, ?_⟩
  intro i sends
  have hfirst : i = 0 := Nat.lt_one_iff.mp sends.1
  subst hfirst
  decide +kernel

theorem cleartext_perm_iff_of_oneByteEntry :
    (((oneByteEntry 65).2.outbox.map Prod.snd).map cleartext).Perm
        (((oneByteEntry 66).2.outbox.map Prod.snd).map cleartext) ↔
      (123456 : UInt32) = 123456 ∧ (oneByteEntry 65).1.SameChecksums (oneByteEntry 66).1 :=
  Sending.cleartext_perm_iff_pins KnownAnswers.ssl_lawful (transmits_oneByteEntry 65 (by decide))
    (transmits_oneByteEntry 66 (by decide)) alike_oneByteEntry

/-- The session that has sent the byte `A` with another pin. -/
def otherPin : Endpoint :=
  (Endpoint.machine KnownAnswers.platform
    ((Endpoint.sendFile [97] [65] 654321 false []).getD {})).reached KnownAnswers.sending

theorem transmits_otherPin :
    (oneByteEntry 65).1.Transmits KnownAnswers.platform 654321 otherPin := by
  refine ⟨⟨false, [], _, KnownAnswers.sending, rfl, ?_⟩,
    by decide +kernel, by decide +kernel, by decide +kernel, by decide +kernel⟩
  exact Machine.runUnder_reached (by decide +kernel)

/-- Two pins are told apart by the handshake, and two files of one byte each by the checksums in
the headers of their chunks. -/
theorem secrets_in_cleartext :
    (oneByteEntry 65).1.Transmits KnownAnswers.platform 123456 (oneByteEntry 65).2 ∧
      (oneByteEntry 65).1.Transmits KnownAnswers.platform 654321 otherPin ∧
      (oneByteEntry 66).1.Transmits KnownAnswers.platform 123456 (oneByteEntry 66).2 ∧
      (oneByteEntry 65).1.Alike KnownAnswers.platform (oneByteEntry 65).1 ∧
      (oneByteEntry 65).1.Alike KnownAnswers.platform (oneByteEntry 66).1 ∧
      ¬ (((oneByteEntry 65).2.outbox.map Prod.snd).map cleartext).Perm
        ((otherPin.outbox.map Prod.snd).map cleartext) ∧
      ¬ (((oneByteEntry 65).2.outbox.map Prod.snd).map cleartext).Perm
        (((oneByteEntry 66).2.outbox.map Prod.snd).map cleartext) :=
  ⟨transmits_oneByteEntry 65 (by decide), transmits_otherPin,
    transmits_oneByteEntry 66 (by decide), ⟨rfl, rfl, rfl, rfl, fun _ _ => rfl⟩,
    alike_oneByteEntry, by decide +kernel, by decide +kernel⟩

end Sxaint.App
