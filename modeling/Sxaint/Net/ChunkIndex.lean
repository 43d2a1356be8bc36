/-
# The index of a chunk

`processChunk` uses the number of a chunk as an index into the completion bits without
comparing the two. What it compares is the end of the target with the size of the view, and
the view and the bits are sized by two unrelated fields of the handshake. A chunk of no bytes
passes the comparison up to the end of the view, so the index is inside exactly if the
announced file ends before the first chunk that is not announced.
-/

import Sxaint.Net.ChunkCall

namespace Sxaint.Net

open Sxaint.Core Transition

/-- The target is fixed and the chunk is not marked. -/
def ChunkPc.aimed : ChunkPc → Bool
  | .decrypt _ => true
  | .decompress _ _ => true
  | .check _ => true
  | .mark => true
  | _ => false

/-- The file is empty or ends before the first chunk that is not announced. -/
def Handshake.Fits (hs : Handshake) : Prop :=
  hs.fileSize.toNat = 0 ∨
    hs.fileSize.toNat < hs.totalChunks.toNat * Chunker.kDefaultChunkSize

instance (hs : Handshake) : Decidable hs.Fits :=
  inferInstanceAs (Decidable (_ ∨ _))

namespace Endpoint

variable {P : Platform}

/-! ## In every run -/

/-- A chunk that is about to be marked has its bit. -/
def SafeIndex (w : Endpoint) : Prop :=
  ∀ header payload, Task.recvChunk header payload .mark ∈ w.tasks →
    header.chunkId.toNat < w.currentManifest.completedChunks.length

/-- A handshake is accepted when no other one is being initialised, and its file fits its
chunks. -/
def Fitting (w : Endpoint) (event : Event) : Prop :=
  OneAtATime w event ∧
    ∀ hs ∈ w.entering event, w.expectedChunks = 0 → hs.pin = w.expectedPin → hs.Fits

instance (w : Endpoint) (event : Event) : Decidable (Fitting w event) :=
  inferInstanceAs (Decidable (_ ∧ ∀ hs ∈ w.entering event, _))

/-- The view ends before the first chunk without a bit, and tasks aim before that. -/
structure Indexed (w : Endpoint) : Prop where
  fits : ∀ hs pc, Task.handshake hs pc ∈ w.tasks → pc.inProgress = true → hs.Fits
  view : w.writeView.size = 0 ∨ w.writeView.size <
    w.currentManifest.completedChunks.length * Chunker.kDefaultChunkSize
  aimed : ∀ header payload pc, Task.recvChunk header payload pc ∈ w.tasks → pc.aimed = true →
    header.chunkId.toNat < w.currentManifest.completedChunks.length

/-- A target in a view that fits its bits has a bit. -/
theorem index_lt_of_inside {bits size : ℕ} {header : ChunkWireHeader} (nonempty : size ≠ 0)
    (fits : size = 0 ∨ size < bits * Chunker.kDefaultChunkSize)
    (inside : chunkOffset header.chunkId + header.originalSize.toNat ≤ size) :
    header.chunkId.toNat < bits := by
  have hlt := fits.resolve_left nonempty
  rw [chunkOffset] at inside
  have hmul : header.chunkId.toNat * Chunker.kDefaultChunkSize <
      bits * Chunker.kDefaultChunkSize := by omega
  exact Nat.lt_of_mul_lt_mul_right hmul

private theorem indexed_handshake {index : ℕ} {ok : Bool} {hs : Handshake}
    {pc next : HandshakePc} {w v : Endpoint} (inv : Indexed w) (exclusive : Exclusive P w)
    (fitting : Fitting w (.task index ok)) (found : w.tasks[index]? = some (.handshake hs pc))
    (taken : HandshakeStep P hs w pc next v) :
    Indexed { v with tasks := v.tasks.set index (.handshake hs next) } := by
  have hmem := List.mem_of_getElem? found
  have hstage (running : pc.inProgress = true) : Stage P hs w pc :=
    exclusive.stage hs pc hmem (holds_of_inProgress running)
  have hchunk : ∀ header payload pc',
      Task.recvChunk header payload pc' ∈ w.tasks.set index (.handshake hs next) →
        Task.recvChunk header payload pc' ∈ w.tasks := by
    intro header payload pc' hin
    rcases List.mem_or_eq_of_mem_set hin with hold | hnew
    · exact hold
    · cases hnew
  have hfits (new : next.inProgress = true → hs.Fits) : ∀ hs' pc',
      Task.handshake hs' pc' ∈ w.tasks.set index (.handshake hs next) →
        pc'.inProgress = true → hs'.Fits := by
    intro hs' pc' hin hrunning
    rcases List.mem_or_eq_of_mem_set hin with hold | hnew
    · exact inv.fits hs' pc' hold hrunning
    · cases hnew
      exact new hrunning
  have haimed : ∀ header payload pc',
      Task.recvChunk header payload pc' ∈ w.tasks.set index (.handshake hs next) →
        pc'.aimed = true → header.chunkId.toNat < w.currentManifest.completedChunks.length :=
    fun header payload pc' hin => inv.aimed header payload pc' (hchunk header payload pc' hin)
  have hmine (running : pc.inProgress = true) : hs.Fits := inv.fits hs pc hmem running
  cases taken with
  | resumed _ _ | rejected _ _ | threw _ => exact ⟨hfits (by rintro ⟨⟩), inv.view, haimed⟩
  | admitted unlatched right =>
      have hnew := fitting.2 hs (mem_entering.mpr found) unlatched right
      exact ⟨hfits fun _ => hnew, inv.view, haimed⟩
  | searched searching =>
      refine ⟨hfits fun _ => ?_, inv.view, haimed⟩
      rcases searching with rfl | ⟨_, _, _, _, rfl⟩
      · exact hmine rfl
      · exact hmine rfl
  | packFault packing _ =>
      refine ⟨hfits hmine, inv.view, haimed⟩
  | allotted =>
      -- nothing is published and no chunk has a target while there are no bits
      obtain ⟨-, -, hblank⟩ := hstage rfl
      have hview := inv.view
      rw [hblank, Nat.zero_mul] at hview
      refine ⟨hfits fun _ => hmine rfl, .inl (hview.resolve_right (Nat.not_lt_zero _)), ?_⟩
      intro header payload pc' hin hon
      have hlt := haimed header payload pc' hin hon
      rw [hblank] at hlt
      exact (Nat.not_lt_zero _ hlt).elim
  | published =>
      obtain ⟨-, hallotted, hcovers⟩ := hstage rfl
      refine ⟨hfits fun _ => hmine rfl, ?_, haimed⟩
      have hfile := hmine rfl
      rw [Handshake.Fits, ← hcovers.size, ← hallotted.bits] at hfile
      exact hfile
  | prepared _ | unterminated _ | named _ _ | described | recount | created | mapped =>
      exact ⟨hfits fun _ => hmine rfl, inv.view, haimed⟩
  | unmapped | acknowledged _ => exact ⟨hfits (by rintro ⟨⟩), inv.view, haimed⟩

private theorem indexed_chunk {index : ℕ} {header : ChunkWireHeader} {payload : List UInt8}
    {pc next : ChunkPc} {w v : Endpoint} (inv : Indexed w)
    (found : w.tasks[index]? = some (.recvChunk header payload pc))
    (taken : ChunkStep P header payload w pc next v) :
    Indexed { v with tasks := v.tasks.set index (.recvChunk header payload next) } := by
  have hframe := chunkFrame_of_chunkStep taken
  have hmine := inv.aimed header payload pc (List.mem_of_getElem? found)
  have hnext (on : next.aimed = true) :
      header.chunkId.toNat < w.currentManifest.completedChunks.length := by
    cases taken with
    | targeted nonempty inside => exact index_lt_of_inside nonempty inv.view inside
    | decrypted _ | written _ _ | verified _ _ => exact hmine rfl
    | fault _ => exact hmine on
    | marked _ | strayed _ | metered | counted | reported | completed _ | finished _
    | dropped _ => cases on
  refine ⟨fun hs pc' hin hrunning => ?_, ?_, fun header' payload' pc' hin hon => ?_⟩
  · simp only [hframe.tasks] at hin
    rcases List.mem_or_eq_of_mem_set hin with hold | hnew
    · exact inv.fits hs pc' hold hrunning
    · cases hnew
  · simp only [hframe.writeView, hframe.bitCount]
    exact inv.view
  · simp only [hframe.tasks] at hin
    simp only [hframe.bitCount]
    rcases List.mem_or_eq_of_mem_set hin with hold | hnew
    · exact inv.aimed header' payload' pc' hold hon
    · cases hnew
      exact hnext hon

theorem indexed_step {pin : UInt32} {outputDir : Path} {event : Event} {w w' : Endpoint}
    (receiver : Receiver pin outputDir w) (exclusive : Exclusive P w) (inv : Indexed w)
    (fitting : Fitting w event) (taken : Step P w event w') : Indexed w' := by
  have hsubmit {new : Task} (quiet : ∀ hs pc, new = .handshake hs pc → pc = .enter)
      (unaimed : ∀ header payload pc, new = .recvChunk header payload pc → pc = .enter) :
      Indexed (w.submit new) := by
    refine ⟨fun hs pc hin hrunning => ?_, inv.view, fun header payload pc hin hon => ?_⟩
    · rcases List.mem_append.mp hin with hold | hnew
      · exact inv.fits hs pc hold hrunning
      · rw [quiet hs pc (List.mem_singleton.mp hnew).symm] at hrunning
        cases hrunning
    · rcases List.mem_append.mp hin with hold | hnew
      · exact inv.aimed header payload pc hold hon
      · rw [unaimed header payload pc (List.mem_singleton.mp hnew).symm] at hon
        cases hon
  cases taken with
  | deliver idle received =>
      cases received with
      | handshake carried =>
          apply hsubmit
          · rintro _ _ ⟨⟩
            rfl
          · rintro _ _ _ ⟨⟩
      | chunk other carried =>
          apply hsubmit
          · rintro _ _ ⟨⟩
          · rintro _ _ _ ⟨⟩
            rfl
      | _ => exact ⟨inv.fits, inv.view, inv.aimed⟩
  | network => exact ⟨inv.fits, inv.view, inv.aimed⟩
  | handshake found taken => exact indexed_handshake inv exclusive fitting found taken
  | recvChunk found taken => exact indexed_chunk inv found taken
  | sendChunk found taken => exact (receiver.tasks _ (List.mem_of_getElem? found)).elim
  | main taken =>
      obtain ⟨-, rfl⟩ := returned_of_mainStep receiver.main taken
      exact ⟨inv.fits, inv.view, inv.aimed⟩

/-- Where every accepted handshake fits, no chunk is marked beyond the completion bits,
whatever the messages and the interleaving. -/
theorem safeIndex_of_fitting {outputDir : Path} {pin : UInt32} {onProgress : Bool}
    {disk : List Path} {events : List Event} {w : Endpoint}
    (run : (machine P (recvFile outputDir pin onProgress disk)).RunUnder Fitting events w) :
    SafeIndex w := by
  have hindexed : Indexed w := by
    induction run with
    | start =>
        refine ⟨fun hs pc hin => ?_, .inl rfl, fun header payload pc hin => ?_⟩
        · cases hin
        · cases hin
    | snoc prior ok taken ih =>
        exact indexed_step (receiver_run prior) (exclusive_run (fun _ _ h => h.1) prior) ih ok
          (step_cases taken).2
  exact fun header payload hin => hindexed.aimed header payload .mark hin rfl

/-- A chunk whose bytes have been verified, in a session with a bit for it. -/
def untilMark : List Event :=
  .deliver KnownAnswers.chunkMessage :: KnownAnswers.steps 1 4

theorem safeIndex_of_oneChunk :
    SafeIndex (KnownAnswers.session.reached (KnownAnswers.acceptance 1 1 ++ untilMark)) :=
  safeIndex_of_fitting (Machine.runUnder_reached (by decide +kernel))

/-- The handshake announces a file of one byte and no chunks. -/
theorem not_safeIndex_of_noChunks :
    ¬ ∀ (P : Platform) (outputDir : Path) (pin : UInt32) (onProgress : Bool) (disk : List Path)
      (events : List Event) (w : Endpoint),
      (machine P (recvFile outputDir pin onProgress disk)).Run events w → SafeIndex w := by
  intro safe
  have hrun : KnownAnswers.session.Run (KnownAnswers.acceptance 1 0 ++ untilMark)
      (KnownAnswers.session.reached (KnownAnswers.acceptance 1 0 ++ untilMark)) :=
    Machine.run_reached (by decide +kernel)
  have hindex := safe _ _ _ _ _ _ _ hrun
    (ChunkWireHeader.decode KnownAnswers.chunkMessage) (50 :: KnownAnswers.tag)
    (by decide +kernel)
  revert hindex
  decide +kernel

/-! ## For one handshake -/

/-- A chunk message is handled up to the mark with an index inside the completion bits. -/
def CallIndexSafe (P : Platform) (w : Endpoint) : Prop :=
  ∀ header payload labels s, (chunkCall P header payload w).Run labels s → s.1 = .mark →
    header.chunkId.toNat < s.2.currentManifest.completedChunks.length

/-- A call that comes to the mark has a target in the view, and the bits are as before. -/
private theorem index_of_called {header : ChunkWireHeader} {payload : List UInt8} {w v : Endpoint}
    {pc : ChunkPc} (called : Called P header payload w pc v) (marking : pc = .mark) :
    w.writeView.size ≠ 0 ∧
      chunkOffset header.chunkId + header.originalSize.toNat ≤ w.writeView.size ∧
      v.currentManifest = w.currentManifest := by
  cases called with
  | entered | targeted _ _ | opened _ _ _ | refused _ => cases marking
  | written writable _ => exact ⟨writable.nonempty, writable.inside, rfl⟩
  | marked _ past _ _ =>
      rw [marking] at past
      cases past

/-- The header of a chunk of no bytes that carries the checksum of no bytes. -/
def emptyChunk (chunkId : UInt32) : ChunkWireHeader where
  chunkId := chunkId
  compressedSize := 16
  originalSize := 0
  crc32 := Hasher.crc32 []
  compressStra := Strategy.NONE.toByte

/-- A chunk of no bytes comes to the mark wherever it starts in the view. -/
private theorem run_of_emptyChunk {w : Endpoint} {chunkId : UInt32} {sealed : List UInt8}
    (intact : w.fault ≠ .crash) (nonempty : w.writeView.size ≠ 0)
    (inside : chunkOffset chunkId ≤ w.writeView.size)
    (opened : Crypto.decrypt P.ssl sealed w.aesKey chunkId = some []) :
    ∃ labels, (chunkCall P (emptyChunk chunkId) sealed w).Run labels (.mark, w) := by
  have hstep {pc next : ChunkPc}
      (taken : processChunk P (emptyChunk chunkId) sealed pc w = some (next, w)) :
      (chunkCall P (emptyChunk chunkId) sealed w).step () (pc, w) = some (next, w) :=
    Option.filter_eq_some_iff.mpr ⟨taken, by simp [intact]⟩
  have hread : (w.target (emptyChunk chunkId)).read w.fileMapper = some [] := rfl
  have hend : chunkOffset (emptyChunk chunkId).chunkId +
      (emptyChunk chunkId).originalSize.toNat = chunkOffset chunkId := by simp [emptyChunk]
  have henter : processChunk P (emptyChunk chunkId) sealed .enter w =
      some (.decrypt (w.target (emptyChunk chunkId)), w) := by
    simp only [processChunk]
    rw [if_neg nonempty, hend, if_neg (Nat.not_lt.mpr inside)]
    rfl
  have hopen : processChunk P (emptyChunk chunkId) sealed
      (.decrypt (w.target (emptyChunk chunkId))) w =
        some (.decompress (w.target (emptyChunk chunkId)) [], w) := by
    simp only [processChunk, emptyChunk, opened]
  have hwrite : processChunk P (emptyChunk chunkId) sealed
      (.decompress (w.target (emptyChunk chunkId)) []) w =
        some (.check (w.target (emptyChunk chunkId)), w) := by
    simp only [processChunk, hread]
    rfl
  have hcheck : processChunk P (emptyChunk chunkId) sealed
      (.check (w.target (emptyChunk chunkId))) w = some (.mark, w) := by
    simp only [processChunk, hread]
    exact if_neg fun hne => hne rfl
  have hfirst : (chunkCall P (emptyChunk chunkId) sealed w).Run ([] ++ [()] ++ [()]) _ :=
    (Machine.RunUnder.start.snoc trivial (hstep henter)).snoc trivial (hstep hopen)
  have hlast : (chunkCall P (emptyChunk chunkId) sealed w).Run ([] ++ [()] ++ [()] ++ [()]) _ :=
    hfirst.snoc trivial (hstep hwrite)
  exact ⟨_, hlast.snoc trivial (hstep hcheck)⟩

/-- While the view and the bits of a handshake are in place, no chunk message leads to an
index outside of the bits exactly if the handshake fits. -/
theorem callIndexSafe_iff {hs : Handshake} {w : Endpoint} (lawful : P.ssl.Lawful)
    (covers : Covers w.writeView hs.fileSize.toNat w)
    (bits : w.currentManifest.completedChunks.length = hs.totalChunks.toNat)
    (intact : w.fault ≠ .crash) : CallIndexSafe P w ↔ hs.Fits := by
  constructor
  · intro hsafe
    by_contra hunfit
    rw [Handshake.Fits, ← covers.size, not_or, Nat.not_lt] at hunfit
    obtain ⟨hnonempty, hlong⟩ := hunfit
    obtain ⟨sealed, -, -, hopen⟩ := Crypto.decrypt_encrypt lawful [] w.aesKey hs.totalChunks
    obtain ⟨labels, hrun⟩ := run_of_emptyChunk intact hnonempty hlong hopen
    have hlt := hsafe _ _ _ _ hrun rfl
    rw [bits] at hlt
    exact Nat.lt_irrefl _ hlt
  · intro hfits header payload labels s hrun hmark
    obtain ⟨hnonempty, hinside, hmanifest⟩ := index_of_called (called_of_run hrun) hmark
    rw [hmanifest]
    rw [Handshake.Fits, ← covers.size, ← bits] at hfits
    exact index_lt_of_inside hnonempty hfits hinside

end Endpoint

end Sxaint.Net
