/-
# The send queue

The loop that sends a queue of files, one session after another, all with one pin.
The key of a session depends on the pin only and the nonce of a chunk on its index
only, so two files share the pair of key and nonce for every index that both have.
What AES-GCM is called with is unique over the queue exactly if the files agree, as
compressed, on every chunk that two of them send under one index.
-/

import Sxaint.Net.SenderRole

namespace Sxaint.App

open Sxaint.Core Sxaint.Net Transition

/-- One file of the queue, with what its session is told from outside: the strategy
that is detected and the bits that are acknowledged. -/
structure Sending extends SourceFile where
  fileName : List UInt8
  bits : List Bool

namespace Sending

variable (P : Platform)

/-- The chunk with an index exists and is not skipped. -/
def Sends (sending : Sending) (i : ℕ) : Prop :=
  i < sending.chunkCount ∧ sending.bits.getD i false = false

/-- Steps of a session whose strategy is the detected one and at which no handshake
with the pin 0 is looked at. -/
def Steady (sending : Sending) (w : Endpoint) (event : Event) : Prop :=
  w.NoZeroPin event ∧ ∀ strategy ∈ event.strategy?, strategy = sending.strategy

instance (sending : Sending) (w : Endpoint) (event : Event) :
    Decidable (sending.Steady w event) :=
  inferInstanceAs (Decidable (_ ∧ _))

/-- A session for the file has ended in a state, with every chunk sent. -/
structure Ends (pin : UInt32) (sending : Sending) (final : Endpoint) : Prop where
  ran : ∃ onProgress disk start events,
    Endpoint.sendFile sending.fileName sending.contents pin onProgress disk = some start ∧
      (Endpoint.machine P start).RunUnder sending.Steady events final
  returned : final.main = .returned
  accepted : final.handshakeRejected = false
  bits : final.resumeBitfield = sending.bits
  sent : ∀ task ∈ final.tasks, ∀ job ∈ task.job?, task = .sendChunk job .sent

variable {P}

/-- The nonce of the task of a chunk determines its index. -/
theorem index_of_iv {a b : Sending} {i j : ℕ}
    (first : i < a.chunkCount) (second : j < b.chunkCount)
    (same : Crypto.iv (a.job 2 i).chunkId = Crypto.iv (b.job 2 j).chunkId) : i = j := by
  have hids := congrArg UInt32.toNat (Crypto.iv_injective same)
  rwa [SourceFile.toNat_job_chunkId 2 first, SourceFile.toNat_job_chunkId 2 second] at hids

/-- The jobs of a session that has ended are those of the chunks it sends. -/
theorem mem_jobs_of_ends {pin : UInt32} {sending : Sending} {final : Endpoint}
    (ends : sending.Ends P pin final) {job : SendJob} :
    job ∈ final.jobs ↔ ∃ i, sending.Sends i ∧ sending.job 2 i = job := by
  obtain ⟨onProgress, disk, start, events, opened, run⟩ := ends.ran
  have hnonempty := Endpoint.ne_nil_of_sendFile opened
  have inv : Endpoint.Sender P (Endpoint.SetUp.ofFile sending.fileName sending.contents pin disk)
      (· = sending.strategy) final :=
    Endpoint.sender_run opened (fun _ _ h => h.1) (fun _ _ h => h.2) run
  have hmain := inv.main
  rw [ends.returned] at hmain
  obtain ⟨-, -, ⟨hrejected, -⟩ | ⟨strategy, rfl, hjobs⟩⟩ := hmain
  · rw [ends.accepted] at hrejected
    cases hrejected
  · rw [hjobs, ends.bits, SendJob.ofChunks, List.mem_map]
    constructor
    · rintro ⟨chunk, hmem, rfl⟩
      obtain ⟨hslice, hkept⟩ := List.mem_filter.mp hmem
      obtain ⟨i, hi, rfl⟩ := (Chunker.mem_slice hnonempty).mp hslice
      rw [Chunker.toNat_chunkAt_id hi] at hkept
      exact ⟨i, ⟨hi, by simpa using hkept⟩, rfl⟩
    · rintro ⟨i, ⟨hi, hkept⟩, rfl⟩
      refine ⟨_, List.mem_filter.mpr ⟨(Chunker.mem_slice hnonempty).mpr ⟨i, hi, rfl⟩, ?_⟩, rfl⟩
      rw [Chunker.toNat_chunkAt_id hi]
      simpa using hkept

/-- The call of a chunk's task, by the bytes it encrypts. -/
theorem call?_job {pin : UInt32} {sending : Sending} {disk : List Path} {i : ℕ}
    (sends : sending.Sends i) (call : EncryptCall) :
    (Endpoint.SetUp.ofFile sending.fileName sending.contents pin disk).call? P (sending.job 2 i) =
        some call ↔
      ∃ bytes, sending.packed P.codecs i = some bytes ∧
        ⟨Crypto.deriveKey P.ssl pin, Crypto.iv (sending.job 2 i).chunkId, bytes⟩ = call := by
  rw [← SourceFile.plaintext_job 2 sends.1]
  exact Option.map_eq_some_iff

/-- A session that has ended has encrypted each chunk it sends, under the key of the pin
and the nonce of the chunk. -/
theorem encrypted_of_ends {pin : UInt32} {sending : Sending} {final : Endpoint} {i : ℕ}
    (ends : sending.Ends P pin final) (sends : sending.Sends i) :
    ∃ bytes, sending.packed P.codecs i = some bytes ∧
      ⟨Crypto.deriveKey P.ssl pin, Crypto.iv (sending.job 2 i).chunkId, bytes⟩ ∈
        final.encryptCalls := by
  obtain ⟨onProgress, disk, start, events, opened, run⟩ := ends.ran
  have inv : Endpoint.Sender P (Endpoint.SetUp.ofFile sending.fileName sending.contents pin disk)
      (· = sending.strategy) final :=
    Endpoint.sender_run opened (fun _ _ h => h.1) (fun _ _ h => h.2) run
  have hjob : sending.job 2 i ∈ final.jobs := (mem_jobs_of_ends ends).mpr ⟨i, sends, rfl⟩
  obtain ⟨task, htask, hof⟩ := List.mem_filterMap.mp hjob
  cases task with
  | sendChunk job pc =>
      obtain rfl : job = sending.job 2 i := Option.some.inj hof
      cases ends.sent _ htask _ rfl
      obtain ⟨call, hmem, hcall⟩ := inv.tasks _ htask rfl
      obtain ⟨bytes, hpacked, rfl⟩ := (call?_job sends call).mp hcall
      exact ⟨bytes, hpacked, hmem⟩
  | handshake _ _ | recvChunk _ _ _ => cases hof

/-- It has encrypted nothing else. -/
theorem sends_of_encrypted {pin : UInt32} {sending : Sending} {final : Endpoint}
    {call : EncryptCall} (ends : sending.Ends P pin final) (mem : call ∈ final.encryptCalls) :
    ∃ i bytes, sending.Sends i ∧ sending.packed P.codecs i = some bytes ∧
      ⟨Crypto.deriveKey P.ssl pin, Crypto.iv (sending.job 2 i).chunkId, bytes⟩ = call := by
  obtain ⟨onProgress, disk, start, events, opened, run⟩ := ends.ran
  have inv : Endpoint.Sender P (Endpoint.SetUp.ofFile sending.fileName sending.contents pin disk)
      (· = sending.strategy) final :=
    Endpoint.sender_run opened (fun _ _ h => h.1) (fun _ _ h => h.2) run
  obtain ⟨job, hjob, hcall⟩ := inv.calls call mem
  obtain ⟨i, hsends, rfl⟩ := (mem_jobs_of_ends ends).mp hjob
  obtain ⟨bytes, hpacked, hcall⟩ := (call?_job hsends call).mp hcall
  exact ⟨i, bytes, hsends, hpacked, hcall⟩

end Sending

/-- No two calls use one key and one nonce on different plaintexts. -/
def NonceUnique (calls : List EncryptCall) : Prop :=
  ∀ first ∈ calls, ∀ second ∈ calls, first.key = second.key → first.iv = second.iv →
    first.plaintext = second.plaintext

instance (calls : List EncryptCall) : Decidable (NonceUnique calls) :=
  inferInstanceAs (Decidable (∀ first ∈ calls, _))

variable {P : Platform}

/-- Over a queue of files sent one after another with one pin, nonces are unique exactly
if any two of the files that send a chunk under one index compress it to the same
bytes. -/
theorem nonceUnique_iff {pin : UInt32} {queue : List (Sending × Endpoint)}
    (ended : ∀ entry ∈ queue, entry.1.Ends P pin entry.2) :
    NonceUnique (queue.flatMap fun entry => entry.2.encryptCalls) ↔
      ∀ a ∈ queue, ∀ b ∈ queue, ∀ i, a.1.Sends i → b.1.Sends i →
        a.1.packed P.codecs i = b.1.packed P.codecs i := by
  constructor
  · intro hunique a ha b hb i hsendsA hsendsB
    obtain ⟨bytes, hpackedA, hfirst⟩ := Sending.encrypted_of_ends (ended a ha) hsendsA
    obtain ⟨bytes', hpackedB, hsecond⟩ := Sending.encrypted_of_ends (ended b hb) hsendsB
    have hid : (a.1.job 2 i).chunkId = (b.1.job 2 i).chunkId := by
      rw [SourceFile.job_chunkId, SourceFile.job_chunkId]
    have hbytes : bytes = bytes' :=
      hunique _ (List.mem_flatMap.mpr ⟨a, ha, hfirst⟩) _ (List.mem_flatMap.mpr ⟨b, hb, hsecond⟩)
        rfl (congrArg Crypto.iv hid)
    rw [hpackedA, hpackedB, hbytes]
  · intro hsame first hfirst second hsecond _ hiv
    obtain ⟨a, ha, hfirst⟩ := List.mem_flatMap.mp hfirst
    obtain ⟨b, hb, hsecond⟩ := List.mem_flatMap.mp hsecond
    obtain ⟨i, bytes, hsendsA, hpackedA, rfl⟩ := Sending.sends_of_encrypted (ended a ha) hfirst
    obtain ⟨j, bytes', hsendsB, hpackedB, rfl⟩ := Sending.sends_of_encrypted (ended b hb) hsecond
    obtain rfl := Sending.index_of_iv hsendsA.1 hsendsB.1 hiv
    have hbytes := hsame a ha b hb i hsendsA hsendsB
    rw [hpackedA, hpackedB] at hbytes
    exact Option.some.inj hbytes

/-- A queue entry of one byte, and the session that has sent it. -/
def oneByteEntry (byte : UInt8) : Sending × Endpoint :=
  ({ contents := [byte], strategy := .NONE, fileName := [97], bits := [false] },
    (Endpoint.machine KnownAnswers.platform (KnownAnswers.sender byte)).reached
      KnownAnswers.sending)

/-- One file sent twice needs no second nonce. -/
theorem nonceUnique_of_one_file :
    NonceUnique ((oneByteEntry 65).2.encryptCalls ++ (oneByteEntry 65).2.encryptCalls) := by
  have hends : (oneByteEntry 65).1.Ends KnownAnswers.platform 123456 (oneByteEntry 65).2 := by
    refine ⟨⟨false, [], KnownAnswers.sender 65, KnownAnswers.sending, rfl, ?_⟩,
      by decide +kernel, by decide +kernel, by decide +kernel, by decide +kernel⟩
    exact Machine.runUnder_reached (by decide +kernel)
  have hsame : ∀ a ∈ [oneByteEntry 65, oneByteEntry 65], a = oneByteEntry 65 := by simp
  have hunique := (nonceUnique_iff (P := KnownAnswers.platform)
    (fun a ha => hsame a ha ▸ hends)).mpr fun a ha b hb i _ _ => by
      rw [hsame a ha, hsame b hb]
  simpa using hunique

/-- Two files of one byte each, sent with one pin, are encrypted with one key and one
nonce. -/
theorem nonce_reused :
    (oneByteEntry 65).1.Ends KnownAnswers.platform 123456 (oneByteEntry 65).2 ∧
      (oneByteEntry 66).1.Ends KnownAnswers.platform 123456 (oneByteEntry 66).2 ∧
      ¬ NonceUnique ([oneByteEntry 65, oneByteEntry 66].flatMap fun entry =>
        entry.2.encryptCalls) := by
  refine ⟨⟨⟨false, [], KnownAnswers.sender 65, KnownAnswers.sending, rfl, ?_⟩,
      by decide +kernel, by decide +kernel, by decide +kernel, by decide +kernel⟩,
    ⟨⟨false, [], KnownAnswers.sender 66, KnownAnswers.sending, rfl, ?_⟩,
      by decide +kernel, by decide +kernel, by decide +kernel, by decide +kernel⟩,
    by decide +kernel⟩
  · exact Machine.runUnder_reached (by decide +kernel)
  · exact Machine.runUnder_reached (by decide +kernel)

end Sxaint.App
