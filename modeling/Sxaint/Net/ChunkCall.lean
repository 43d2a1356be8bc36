/-
# What a chunk writes

A call of `processChunk` from its start to some point, alone in the session. It gives up
before it has written anything, or the decompressor has written into the target, which lies
in the mapped view: there is no buffer between, and no way back when the decompression
fails or the checksum does not match. What a rejected chunk leaves behind is read off from its
strategy, its plaintext and what was stored.
-/

import Sxaint.Core.Checksum
import Sxaint.Net.Integrity

namespace Buffer

universe u

variable {α : Type u}

/-- Overwriting a block by itself changes nothing. -/
theorem overwrite_block {buffer : List α} {offset length : ℕ}
    (fits : offset + length ≤ buffer.length) :
    overwrite buffer offset (block buffer offset length) = buffer := by
  have hlength := length_block_of_le fits
  apply List.ext_getElem?
  intro k
  rw [getElem?_overwrite (by omega), hlength]
  split
  · rw [getElem?_block, if_pos (by omega)]
    congr 1
    omega
  · rfl

end Buffer

namespace Sxaint.Net

open Sxaint.Core Transition

variable {P : Platform}

/-- New contents of a live span leave the view as it is exactly if they are the old ones. -/
theorem Span.write_eq_self_iff {span : Span} {held contents : List UInt8}
    {fileMapper : Option Mapping} (live : span.read fileMapper = some held)
    (same : contents.length = held.length) :
    span.write contents fileMapper = fileMapper ↔ contents = held := by
  unfold Span.read at live
  rw [Span.write]
  split
  · rename_i hempty
    rw [if_pos hempty] at live
    obtain rfl := Option.some.inj live
    exact ⟨fun _ => List.eq_nil_of_length_eq_zero same, fun _ => rfl⟩
  · rename_i hsize
    rw [if_neg hsize] at live
    cases fileMapper with
    | none => cases live
    | some view =>
        simp only at live
        split at live
        · rename_i hinside
          obtain rfl := Option.some.inj live
          have hlength := Buffer.length_block_of_le hinside.2
          constructor
          · intro hview
            have hbytes : Buffer.overwrite view.bytes span.offset contents = view.bytes :=
              congrArg Mapping.bytes (Option.some.inj hview)
            have hself := @Buffer.block_overwrite_self _ view.bytes contents span.offset
              (by omega)
            rw [hbytes, same, hlength] at hself
            exact hself.symm
          · rintro rfl
            rw [Option.map_some, Buffer.overwrite_block hinside.2]
        · cases live

namespace Endpoint

/-- A call of `processChunk` that has the session to itself, as far as it does not crash. -/
def chunkCall (P : Platform) (header : ChunkWireHeader) (payload : List UInt8) (w : Endpoint) :
    Machine (ChunkPc × Endpoint) Unit where
  init := (.enter, w)
  step _ s := (processChunk P header payload s.1 s.2).filter fun next => next.2.fault ≠ .crash

variable {header : ChunkWireHeader} {payload : List UInt8} {w : Endpoint}

/-- Why a call gives up before it writes: there is no view, the target lies outside of it,
or the payload does not open. -/
def Refused (P : Platform) (header : ChunkWireHeader) (payload : List UInt8) (w : Endpoint) :
    Prop :=
  w.writeView.size = 0 ∨
    w.writeView.size < chunkOffset header.chunkId + header.originalSize.toNat ∨
    Crypto.decrypt P.ssl payload w.aesKey header.chunkId = none

/-- The target lies in the view and holds some bytes, and the payload opens: the
decompressor is called. -/
structure Writable (P : Platform) (header : ChunkWireHeader) (payload : List UInt8)
    (w : Endpoint) (plain held : List UInt8) : Prop where
  nonempty : w.writeView.size ≠ 0
  inside : chunkOffset header.chunkId + header.originalSize.toNat ≤ w.writeView.size
  opened : Crypto.decrypt P.ssl payload w.aesKey header.chunkId = some plain
  live : (w.target header).read w.fileMapper = some held

/-- What the target holds after the decompressor was called on it. -/
def leftBytes (P : Platform) (header : ChunkWireHeader) (plain held : List UInt8) : List UInt8 :=
  (SmartCompressor.decompress P.codecs plain held (Strategy.ofByte header.compressStra)).2

@[simp]
theorem length_leftBytes (plain held : List UInt8) :
    (leftBytes P header plain held).length = held.length :=
  SmartCompressor.length_decompress _ _ _ _

/-- How far a call has come, and what it has changed. -/
inductive Called (P : Platform) (header : ChunkWireHeader) (payload : List UInt8)
    (w : Endpoint) : ChunkPc → Endpoint → Prop
  | entered : Called P header payload w .enter w
  | targeted (nonempty : w.writeView.size ≠ 0)
      (inside : chunkOffset header.chunkId + header.originalSize.toNat ≤ w.writeView.size) :
      Called P header payload w (.decrypt (w.target header)) w
  | opened {plain : List UInt8} (nonempty : w.writeView.size ≠ 0)
      (inside : chunkOffset header.chunkId + header.originalSize.toNat ≤ w.writeView.size)
      (opened : Crypto.decrypt P.ssl payload w.aesKey header.chunkId = some plain) :
      Called P header payload w (.decompress (w.target header) plain) w
  | refused (reason : Refused P header payload w) : Called P header payload w .dropped w
  | /-- The decompressor has written, and nothing else has changed. -/
    written {plain held : List UInt8} {pc : ChunkPc}
      (writable : Writable P header payload w plain held)
      (past : pc = .check (w.target header) ∨ pc = .mark ∨ pc = .dropped) :
      Called P header payload w pc
        { w with
          fileMapper := (w.target header).write (leftBytes P header plain held) w.fileMapper }
  | /-- The task is past the mark. -/
    marked {plain held : List UInt8} {pc : ChunkPc} {v : Endpoint}
      (writable : Writable P header payload w plain held)
      (past : pc.beforeMark = false) (alive : pc ≠ .dropped)
      (bytes : v.fileMapper =
        (w.target header).write (leftBytes P header plain held) w.fileMapper) :
      Called P header payload w pc v

private theorem called_step {pc next : ChunkPc} {v v' : Endpoint}
    (inv : Called P header payload w pc v) (taken : ChunkStep P header payload v pc next v')
    (intact : v'.fault ≠ .crash) : Called P header payload w next v' := by
  cases inv with
  | entered =>
      cases taken with
      | targeted nonempty inside => exact .targeted nonempty inside
      | dropped reason => exact .refused (reason.imp id .inl)
      | fault reason => exact reason.elim
  | targeted nonempty inside =>
      cases taken with
      | decrypted opened => exact .opened nonempty inside opened
      | dropped reason => exact .refused (.inr (.inr reason))
      | fault reason => exact reason.elim
  | opened nonempty inside opened =>
      cases taken with
      | written live result =>
          apply Called.written ⟨nonempty, inside, opened, live⟩
          rw [result]
          split
          · exact .inr (.inr rfl)
          · exact .inl rfl
      | dropped reason => exact reason.elim
      | fault _ => exact (intact rfl).elim
  | refused reason =>
      cases taken with
      | dropped reason => exact reason.elim
      | fault reason => exact reason.elim
  | written writable past =>
      rcases past with rfl | rfl | rfl
      · cases taken with
        | verified _ _ => exact .written writable (.inr (.inl rfl))
        | dropped reason => exact .written writable (.inr (.inr rfl))
        | fault _ => exact (intact rfl).elim
      · cases taken with
        | marked _ | strayed _ => exact .marked writable rfl (by rintro ⟨⟩) rfl
        | dropped reason => exact reason.elim
        | fault reason => exact reason.elim
      · cases taken with
        | dropped reason => exact reason.elim
        | fault reason => exact reason.elim
  | marked writable past alive bytes =>
      cases taken with
      | metered | counted | completed _ | finished _ =>
          exact .marked writable rfl (by rintro ⟨⟩) bytes
      | reported =>
          refine .marked writable rfl (by rintro ⟨⟩) ?_
          rw [reportProgress_eq]
          exact bytes
      | targeted _ _ | decrypted _ | written _ _ | verified _ _ | marked _ | strayed _ => cases past
      | dropped reason =>
          rw [beforeMark_of_drops reason] at past
          cases past
      | fault _ => exact (intact rfl).elim

/-- Every point that a call comes to is one of the cases. -/
theorem called_of_run {labels : List Unit} {pc : ChunkPc} {v : Endpoint}
    (run : (chunkCall P header payload w).Run labels (pc, v)) :
    Called P header payload w pc v := by
  refine run.invariant
    (motive := fun s : ChunkPc × Endpoint => Called P header payload w s.1 s.2) .entered ?_
  intro s _ s' inv _ taken
  obtain ⟨hstep, hintact⟩ := Option.filter_eq_some_iff.mp taken
  exact called_step inv (chunkStep_of_processChunk hstep) (by simpa using hintact)

/-! ## A rejected chunk -/

/-- The view, its bytes, the completion bits, the counter and the metrics are what they
were. -/
structure NoTrace (w v : Endpoint) : Prop where
  view : v.writeView = w.writeView
  bytes : v.fileMapper = w.fileMapper
  completed : v.currentManifest.completedChunks = w.currentManifest.completedChunks
  received : v.chunksRecv = w.chunksRecv
  metrics : v.metrics = w.metrics

/-- A plaintext changes nothing of the bytes that are stored. Without compression it is too long
for them or is what they begin with; the libraries find the stored bytes in their destination
and leave them there; a byte that names no strategy writes nothing. -/
def KeepsStored (lib : CodecLibrary) (plain held : List UInt8) : Option Strategy → Prop
  | some .NONE => held.length < plain.length ∨ plain <+: held
  | some .LZ4 =>
    (lib.lz4DecompressSafe plain (SmartCompressor.toInt plain.length)
      (SmartCompressor.toInt held.length) held).2 = held
  | some .ZSTD => (lib.zstdDecompress plain held).2 = held
  | none => True

/-- The chunk is refused, or its payload opens to a plaintext that by the strategy of its header
changes nothing of the bytes stored at its place. -/
def LeavesTarget (P : Platform) (header : ChunkWireHeader) (payload : List UInt8)
    (w : Endpoint) : Prop :=
  Refused P header payload w ∨
    ∃ plain held, Crypto.decrypt P.ssl payload w.aesKey header.chunkId = some plain ∧
      (w.target header).read w.fileMapper = some held ∧
      KeepsStored P.codecs plain held (Strategy.ofByte header.compressStra)

/-- What each strategy leaves alone. -/
theorem leftBytes_eq_iff {plain held : List UInt8} :
    leftBytes P header plain held = held ↔
      KeepsStored P.codecs plain held (Strategy.ofByte header.compressStra) := by
  rw [leftBytes]
  generalize Strategy.ofByte header.compressStra = strategy
  rcases strategy with _ | _ | _ | _
  · exact iff_of_true rfl trivial
  · rw [SmartCompressor.decompress, KeepsStored]
    split
    · rename_i hlong
      exact iff_of_true rfl (.inl hlong)
    · rename_i hfits
      have hover : Buffer.overwrite held 0 plain = plain ++ held.drop plain.length := by
        rw [Buffer.overwrite, List.take_zero, List.nil_append, Nat.zero_add]
      rw [hover]
      constructor
      · exact fun hsame => .inr ⟨held.drop plain.length, hsame⟩
      · rintro (hlong | ⟨rest, rfl⟩)
        · exact (hfits hlong).elim
        · rw [List.drop_left]
  · rw [SmartCompressor.decompress, KeepsStored]
    split <;> exact Iff.rfl
  · exact Iff.rfl

/-- A chunk cannot be both refused and writable. -/
theorem Refused.not_writable (refused : Refused P header payload w) {plain held : List UInt8}
    (writable : Writable P header payload w plain held) : False := by
  rcases refused with hempty | houtside | hsealed
  · exact writable.nonempty hempty
  · have hinside := writable.inside
    omega
  · rw [writable.opened] at hsealed
    cases hsealed

/-- A call that ends without marking its chunk leaves no trace exactly if the chunk was refused
before the decompression, or by its header and its payload nothing changes of the stored bytes. -/
theorem noTrace_iff {labels : List Unit} {s : ChunkPc × Endpoint}
    (run : (chunkCall P header payload w).Run labels s) (ended : s.1 = .dropped) :
    NoTrace w s.2 ↔ LeavesTarget P header payload w := by
  obtain ⟨pc, v⟩ := s
  obtain rfl : pc = .dropped := ended
  cases called_of_run run with
  | refused reason =>
      exact iff_of_true ⟨rfl, rfl, rfl, rfl, rfl⟩ (.inl reason)
  | @written plain held _ writable _ =>
      have hsame := Span.write_eq_self_iff writable.live (@length_leftBytes P header plain held)
      rw [leftBytes_eq_iff] at hsame
      constructor
      · intro htrace
        exact .inr ⟨plain, held, writable.opened, writable.live, hsame.mp htrace.bytes⟩
      · rintro (hrefused | ⟨plain', held', hopened, hlive, hkeeps⟩)
        · exact (hrefused.not_writable writable).elim
        · obtain rfl := Option.some.inj (hopened.symm.trans writable.opened)
          obtain rfl := Option.some.inj (hlive.symm.trans writable.live)
          exact ⟨rfl, hsame.mpr hkeeps, rfl, rfl, rfl⟩
  | marked _ _ alive _ => exact (alive rfl).elim

/-- A receiver that has stored its one chunk, the byte `A`. -/
def storedA : Endpoint :=
  KnownAnswers.session.reached (KnownAnswers.acceptance 1 1 ++ KnownAnswers.storage 1)

/-- The header of that chunk with a checksum that is wrong. -/
def wrongSum : ChunkWireHeader :=
  { chunkId := 0, compressedSize := 17, originalSize := 1, crc32 := 0, compressStra := 0 }

/-- The byte `B`, sealed for chunk 0. -/
def sealedB : List UInt8 :=
  [49, 156, 8, 18, 29, 137, 182, 50, 253, 151, 215, 103, 234, 252, 194, 1, 79]

/-- The call that handles a payload under that header. -/
abbrev wrongSumCall (payload : List UInt8) : Machine (ChunkPc × Endpoint) Unit :=
  chunkCall KnownAnswers.platform wrongSum payload storedA

/-- The byte `A` again is rejected for its sum and leaves no trace. -/
theorem noTrace_of_sameByte :
    NoTrace storedA ((wrongSumCall (50 :: KnownAnswers.tag)).reached (List.replicate 4 ())).2 ↔
      LeavesTarget KnownAnswers.platform wrongSum (50 :: KnownAnswers.tag) storedA :=
  noTrace_iff (Machine.run_reached (by decide +kernel)) (by decide +kernel)

/-- The byte `B` is rejected for its sum and has replaced the stored byte. -/
theorem trace_of_otherByte :
    ¬ ∀ (P : Platform) (header : ChunkWireHeader) (payload : List UInt8) (w : Endpoint)
      (labels : List Unit) (s : ChunkPc × Endpoint),
      (chunkCall P header payload w).Run labels s → s.1 = .dropped → NoTrace w s.2 := by
  intro noTrace
  have hbytes := (noTrace KnownAnswers.platform wrongSum sealedB storedA (List.replicate 4 ())
    _ (Machine.run_reached (by decide +kernel)) (by decide +kernel)).bytes
  revert hbytes
  decide +kernel

/-! ## What the checksum catches -/

/-- Sequences of one length that differ in a burst of four positions have different checksums, and a
call that finds one of them in its target under the checksum of the other drops the chunk. -/
theorem dropped_of_burst {xs ys : List UInt8} (same : xs.length = ys.length) (differ : xs ≠ ys)
    {k : ℕ} (burst : ∀ i, xs[i]? ≠ ys[i]? → k ≤ i ∧ i < k + 4) :
    Hasher.crc32 xs ≠ Hasher.crc32 ys ∧
      ∀ (P : Platform) (w : Endpoint) (header : ChunkWireHeader) (payload : List UInt8)
        (target : Span), header.crc32 = Hasher.crc32 xs → target.read w.fileMapper = some ys →
          processChunk P header payload (.check target) w = some (.dropped, w) := by
  have hsums := Hasher.crc32_ne_of_burst same differ burst
  refine ⟨hsums, ?_⟩
  intro P w header payload target hannounced hheld
  simp only [processChunk, hheld]
  rw [if_pos (by rw [hannounced]; exact hsums.symm)]

/-- The bytes `ABCDE` with two of them changed. -/
theorem dropped_of_twoBytes :
    Hasher.crc32 [65, 66, 67, 68, 69] ≠ Hasher.crc32 [65, 0, 67, 68, 1] := by
  refine (@dropped_of_burst [65, 66, 67, 68, 69] [65, 0, 67, 68, 1] rfl (by decide) 1 ?_).1
  intro i hdiffers
  by_contra hout
  apply hdiffers
  rcases i with _ | _ | _ | _ | _ | i
  · rfl
  all_goals first | rfl | omega

end Endpoint

end Sxaint.Net
