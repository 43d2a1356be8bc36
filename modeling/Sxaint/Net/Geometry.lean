/-
# Where chunks are written

A chunk is placed by the size that chunks have at compile time, and takes as many bytes as its
header says, as far as the view goes. The size of chunks that the handshake announces is stored
and not used. So chunks keep to their own bytes of the file, and the messages of all chunks
store the file, exactly as far as the three sizes agree.
-/

import Sxaint.Machine.Progress
import Sxaint.Net.ChunkCall

namespace Sxaint.Net

open Sxaint.Core Transition

/-- How many steps a call has before it, at most. -/
@[simp]
def ChunkPc.left : ChunkPc → ℕ
  | .enter => 9
  | .decrypt _ => 8
  | .decompress _ _ => 7
  | .check _ => 6
  | .mark => 5
  | .addBytes => 4
  | .count => 3
  | .report _ => 2
  | .compare _ => 1
  | .dropped => 0
  | .stored _ _ => 0

namespace Endpoint

variable {P : Platform} {header : ChunkWireHeader} {payload : List UInt8} {w : Endpoint}

/-! ## The bytes of a chunk -/

/-- A byte belongs to a chunk of the announced file, by the announced size of its chunks. -/
def InChunk (hs : Handshake) (chunkId : UInt32) (k : ℕ) : Prop :=
  chunkId.toNat * hs.chunkSize.toNat ≤ k ∧
    k < min ((chunkId.toNat + 1) * hs.chunkSize.toNat) hs.fileSize.toNat

instance (hs : Handshake) (chunkId : UInt32) (k : ℕ) : Decidable (InChunk hs chunkId k) :=
  inferInstanceAs (Decidable (_ ∧ _))

/-- The bytes of a file that belong to a chunk. -/
def announcedChunk (hs : Handshake) (file : List UInt8) (chunkId : UInt32) : List UInt8 :=
  Buffer.block file (chunkId.toNat * hs.chunkSize.toNat) hs.chunkSize.toNat

/-- Different chunks have no byte in common. -/
theorem InChunk.unique {hs : Handshake} {first second : UInt32} {k : ℕ}
    (hfirst : InChunk hs first k) (hsecond : InChunk hs second k) : first = second := by
  obtain ⟨hlow, hhigh⟩ := hfirst
  obtain ⟨hlow', hhigh'⟩ := hsecond
  rw [Nat.lt_min] at hhigh hhigh'
  have hle : first.toNat < second.toNat + 1 :=
    Nat.lt_of_mul_lt_mul_right (Nat.lt_of_le_of_lt hlow hhigh'.1)
  have hge : second.toNat < first.toNat + 1 :=
    Nat.lt_of_mul_lt_mul_right (Nat.lt_of_le_of_lt hlow' hhigh.1)
  exact UInt32.toNat_inj.mp (by omega)

/-- Enough chunks make up the file. -/
theorem exists_inChunk {hs : Handshake} {k : ℕ} (inside : k < hs.fileSize.toNat)
    (enough : hs.fileSize.toNat ≤ hs.totalChunks.toNat * hs.chunkSize.toNat) :
    ∃ chunkId < hs.totalChunks, InChunk hs chunkId k := by
  have hlt : k / hs.chunkSize.toNat < hs.totalChunks.toNat :=
    Nat.div_lt_of_lt_mul (by rw [Nat.mul_comm]; omega)
  have hsize : 0 < hs.chunkSize.toNat := by
    by_contra hzero
    rw [Nat.eq_zero_of_not_pos hzero, Nat.mul_zero] at enough
    omega
  have hid : (UInt32.ofNat (k / hs.chunkSize.toNat)).toNat = k / hs.chunkSize.toNat :=
    UInt32.toNat_ofNat_of_lt (Nat.lt_trans hlt hs.totalChunks.toNat_lt)
  refine ⟨UInt32.ofNat (k / hs.chunkSize.toNat), ?_, ?_⟩
  · rw [UInt32.lt_iff_toNat_lt, hid]
    exact hlt
  · rw [InChunk, hid, Nat.lt_min]
    exact ⟨Nat.div_mul_le_self _ _, Nat.lt_mul_of_div_lt (Nat.lt_succ_self _) hsize, inside⟩

/-! ## What a call changes -/

/-- A call changes a byte of the view. -/
def Changes (P : Platform) (w : Endpoint) (message : ChunkWireHeader × List UInt8) (k : ℕ) :
    Prop :=
  ∃ labels s, (chunkCall P message.1 message.2 w).Run labels s ∧
    s.2.mappedBytes[k]? ≠ w.mappedBytes[k]?

/-- The same session with other bytes in its view. -/
def withBytes (w : Endpoint) (bytes : List UInt8) : Endpoint :=
  { w with fileMapper := w.fileMapper.map fun view => { view with bytes := bytes } }

/-- A message with this id and this original size can change a byte of the view: one with some
payload and the rest of its header does, over some contents of the view. -/
def Writes (P : Platform) (w : Endpoint) (chunkId originalSize : UInt32) (k : ℕ) : Prop :=
  ∃ (header : ChunkWireHeader) (payload bytes : List UInt8), header.chunkId = chunkId ∧
    header.originalSize = originalSize ∧ bytes.length = w.mappedBytes.length ∧
    Changes P (w.withBytes bytes) (header, payload) k

/-- The target of a chunk that is written is a block of the view. -/
theorem Writable.held_eq {size : ℕ} {plain held : List UInt8}
    (writable : Writable P header payload w plain held) (covers : Covers w.writeView size w) :
    chunkOffset header.chunkId + header.originalSize.toNat ≤ w.mappedBytes.length ∧
      held = Buffer.block w.mappedBytes (chunkOffset header.chunkId)
        header.originalSize.toNat := by
  have hinside := writable.inside
  rw [covers.size] at hinside
  refine ⟨(length_mappedBytes covers).symm ▸ hinside, ?_⟩
  have hread := read_viewSpan covers hinside
  exact Option.some.inj (writable.live.symm.trans hread)

theorem Writable.length_held {size : ℕ} {plain held : List UInt8}
    (writable : Writable P header payload w plain held) (covers : Covers w.writeView size w) :
    held.length = header.originalSize.toNat := by
  obtain ⟨hfits, hheld⟩ := writable.held_eq covers
  rw [hheld, Buffer.length_block_of_le hfits]

/-- The view after the decompressor has written. -/
theorem mappedBytes_of_written {size : ℕ} {plain held : List UInt8} {v : Endpoint}
    (writable : Writable P header payload w plain held) (covers : Covers w.writeView size w)
    (bytes : v.fileMapper =
      (w.target header).write (leftBytes P header plain held) w.fileMapper) :
    v.mappedBytes = Buffer.overwrite w.mappedBytes (chunkOffset header.chunkId)
      (leftBytes P header plain held) := by
  have hwrite := @mappedBytes_write size (chunkOffset header.chunkId)
    (leftBytes P header plain held) w covers
  rw [length_leftBytes, writable.length_held covers] at hwrite
  rw [← hwrite, mappedBytes, bytes]
  rfl

/-- A call comes to the end of the decompression. -/
private theorem run_of_writable {plain held : List UInt8} (live : w.fault ≠ .crash)
    (writable : Writable P header payload w plain held) :
    ∃ labels s, (chunkCall P header payload w).Run labels s ∧
      s.2.fileMapper =
        (w.target header).write (leftBytes P header plain held) w.fileMapper := by
  have henter : (chunkCall P header payload w).step () (.enter, w) =
      some (.decrypt (w.target header), w) := by
    refine Option.filter_eq_some_iff.mpr ⟨?_, by simp [live]⟩
    simp only [processChunk]
    rw [if_neg writable.nonempty, if_neg (Nat.not_lt.mpr writable.inside)]
    rfl
  have hopen : (chunkCall P header payload w).step () (.decrypt (w.target header), w) =
      some (.decompress (w.target header) plain, w) := by
    refine Option.filter_eq_some_iff.mpr ⟨?_, by simp [live]⟩
    simp only [processChunk, writable.opened]
  obtain ⟨pc, hwrite⟩ : ∃ pc, (chunkCall P header payload w).step ()
      (.decompress (w.target header) plain, w) =
        some (pc,
          { w with
            fileMapper :=
              (w.target header).write (leftBytes P header plain held) w.fileMapper }) := by
    have hstep : ∃ pc, processChunk P header payload (.decompress (w.target header) plain) w =
        some (pc,
          { w with
            fileMapper :=
              (w.target header).write (leftBytes P header plain held) w.fileMapper }) := by
      simp only [processChunk, writable.live]
      split
      · exact ⟨_, rfl⟩
      · exact ⟨_, rfl⟩
    obtain ⟨pc, hstep⟩ := hstep
    exact ⟨pc, Option.filter_eq_some_iff.mpr ⟨hstep, by simp [live]⟩⟩
  have hrun : (chunkCall P header payload w).Run ([] ++ [()] ++ [()]) _ :=
    (Machine.RunUnder.start.snoc trivial henter).snoc trivial hopen
  exact ⟨_, _, hrun.snoc trivial hwrite, rfl⟩

/-- The bytes of the view that a written target differs in. -/
private theorem differs_iff {size k : ℕ} {plain held : List UInt8} {v : Endpoint}
    (writable : Writable P header payload w plain held) (covers : Covers w.writeView size w)
    (bytes : v.fileMapper =
      (w.target header).write (leftBytes P header plain held) w.fileMapper) :
    v.mappedBytes[k]? ≠ w.mappedBytes[k]? ↔ ∃ j, k = chunkOffset header.chunkId + j ∧
      (leftBytes P header plain held)[j]? ≠ held[j]? := by
  obtain ⟨hfits, hheld⟩ := writable.held_eq covers
  have hlength : (leftBytes P header plain held).length = header.originalSize.toNat := by
    rw [length_leftBytes, writable.length_held covers]
  have hread (j : ℕ) : held[j]? = if j < header.originalSize.toNat then
      w.mappedBytes[chunkOffset header.chunkId + j]? else none := by
    rw [hheld, Buffer.getElem?_block]
  rw [mappedBytes_of_written writable covers bytes, Buffer.getElem?_overwrite (hlength ▸ hfits),
    hlength]
  constructor
  · intro hdiffers
    split at hdiffers
    · rename_i hinside
      refine ⟨k - chunkOffset header.chunkId, by omega, ?_⟩
      rw [hread, if_pos (by omega), Nat.add_sub_of_le hinside.1]
      exact hdiffers
    · exact (hdiffers rfl).elim
  · rintro ⟨j, rfl, hdiffers⟩
    by_cases hj : j < header.originalSize.toNat
    · rw [hread, if_pos hj] at hdiffers
      rw [if_pos (by omega), Nat.add_sub_cancel_left]
      exact hdiffers
    · rw [hread, if_neg hj, List.getElem?_eq_none (by omega)] at hdiffers
      exact (hdiffers rfl).elim

/-- What a call changes is what the decompressor changes in the target. -/
theorem changes_iff {size : ℕ} (covers : Covers w.writeView size w) (live : w.fault ≠ .crash)
    {message : ChunkWireHeader × List UInt8} {k : ℕ} :
    Changes P w message k ↔ ∃ plain held j, Writable P message.1 message.2 w plain held ∧
      k = chunkOffset message.1.chunkId + j ∧
      (leftBytes P message.1 plain held)[j]? ≠ held[j]? := by
  obtain ⟨header, payload⟩ := message
  constructor
  · rintro ⟨labels, ⟨pc, v⟩, hrun, hchanged⟩
    cases called_of_run hrun with
    | entered | targeted _ _ | opened _ _ _ | refused _ => exact (hchanged rfl).elim
    | @written plain held _ writable _ =>
        obtain ⟨j, hj, hdiffers⟩ := (differs_iff writable covers rfl).mp hchanged
        exact ⟨plain, held, j, writable, hj, hdiffers⟩
    | @marked plain held _ _ writable _ _ bytes =>
        obtain ⟨j, hj, hdiffers⟩ := (differs_iff writable covers bytes).mp hchanged
        exact ⟨plain, held, j, writable, hj, hdiffers⟩
  · rintro ⟨plain, held, j, writable, hj, hdiffers⟩
    obtain ⟨labels, s, hrun, hbytes⟩ := run_of_writable live writable
    exact ⟨labels, s, hrun, (differs_iff writable covers hbytes).mpr ⟨j, hj, hdiffers⟩⟩

theorem covers_withBytes {size : ℕ} {bytes : List UInt8} (covers : Covers w.writeView size w)
    (length : bytes.length = size) :
    Covers (w.withBytes bytes).writeView size (w.withBytes bytes) ∧
      (w.withBytes bytes).mappedBytes = bytes := by
  obtain ⟨view, hview, -⟩ := Option.map_eq_some_iff.mp covers.mapped
  have hserial := covers.serial
  rw [hview] at hserial
  refine ⟨⟨?_, ?_, covers.offset, covers.size⟩, ?_⟩
  · rw [withBytes, hview]
    exact hserial
  · rw [withBytes, hview, ← length]
    rfl
  · rw [mappedBytes, withBytes, hview]
    rfl

/-- A message can change the bytes from where its chunk is placed on, as many as its original
size, if these are in the view. -/
theorem writes_iff (lawful : P.ssl.Lawful) {size : ℕ} (covers : Covers w.writeView size w)
    (live : w.fault ≠ .crash) {chunkId originalSize : UInt32} {k : ℕ} :
    Writes P w chunkId originalSize k ↔ chunkOffset chunkId + originalSize.toNat ≤ size ∧
      chunkOffset chunkId ≤ k ∧ k < chunkOffset chunkId + originalSize.toNat := by
  constructor
  · rintro ⟨header, payload, bytes, rfl, rfl, hlength, hchanges⟩
    rw [length_mappedBytes covers] at hlength
    obtain ⟨hcovers, -⟩ := covers_withBytes covers hlength
    obtain ⟨plain, held, j, writable, rfl, hdiffers⟩ := (changes_iff hcovers live).mp hchanges
    have hinside := writable.inside
    rw [hcovers.size] at hinside
    have hheld : held.length = header.originalSize.toNat := writable.length_held hcovers
    have hj : j < header.originalSize.toNat := by
      by_contra hge
      have hleft : (leftBytes P header plain held).length ≤ j := by
        rw [length_leftBytes, hheld]
        exact Nat.not_lt.mp hge
      apply hdiffers
      rw [List.getElem?_eq_none hleft, List.getElem?_eq_none (by omega)]
    exact ⟨hinside, Nat.le_add_right _ _, Nat.add_lt_add_left hj _⟩
  · rintro ⟨hinside, hlow, hhigh⟩
    -- ones as they are, over zeros
    obtain ⟨sealed, -, -, hopened⟩ := Crypto.decrypt_encrypt lawful
      (List.replicate originalSize.toNat 1) w.aesKey chunkId
    let header : ChunkWireHeader :=
      { chunkId := chunkId, compressedSize := 0, originalSize := originalSize, crc32 := 0,
        compressStra := Strategy.NONE.toByte }
    have hzeros : (List.replicate size (0 : UInt8)).length = size := List.length_replicate
    obtain ⟨hcovers, hbytes⟩ := covers_withBytes covers hzeros
    refine ⟨header, sealed, List.replicate size 0, rfl, rfl,
      hzeros.trans (length_mappedBytes covers).symm, ?_⟩
    have hread := read_viewSpan hcovers hinside
    rw [hbytes, Buffer.block_replicate hinside] at hread
    have hwritable : Writable P header sealed (w.withBytes (List.replicate size 0))
        (List.replicate originalSize.toNat 1) (List.replicate originalSize.toNat 0) := by
      refine ⟨?_, ?_, hopened, hread⟩
      · rw [hcovers.size]
        omega
      · rw [hcovers.size]
        exact hinside
    refine (changes_iff hcovers live).mpr
      ⟨_, _, k - chunkOffset chunkId, hwritable, (Nat.add_sub_of_le hlow).symm, ?_⟩
    have hleft : leftBytes P header (List.replicate originalSize.toNat 1)
        (List.replicate originalSize.toNat 0) = List.replicate originalSize.toNat 1 := by
      simp [leftBytes, header, SmartCompressor.decompress, Buffer.overwrite]
    have hj : k - chunkOffset chunkId < originalSize.toNat := by omega
    rw [hleft, List.getElem?_replicate, if_pos hj, List.getElem?_replicate, if_pos hj]
    decide

/-- A chunk of this many bytes keeps to its own: it has none, it ends outside of the file, or its
place by the size of chunks at compile time is inside its place by the announced size. -/
def FitsChunk (hs : Handshake) (chunkId originalSize : UInt32) : Prop :=
  originalSize.toNat = 0 ∨ hs.fileSize.toNat < chunkOffset chunkId + originalSize.toNat ∨
    chunkId.toNat * hs.chunkSize.toNat ≤ chunkOffset chunkId ∧
      chunkOffset chunkId + originalSize.toNat ≤ (chunkId.toNat + 1) * hs.chunkSize.toNat

instance (hs : Handshake) (chunkId originalSize : UInt32) :
    Decidable (FitsChunk hs chunkId originalSize) :=
  inferInstanceAs (Decidable (_ ∨ _ ∨ _ ∧ _))

/-- What a message can change are bytes of its own chunk exactly if it fits this chunk. -/
theorem inside_iff (lawful : P.ssl.Lawful) {hs : Handshake}
    (covers : Covers w.writeView hs.fileSize.toNat w) (live : w.fault ≠ .crash)
    {chunkId originalSize : UInt32} :
    (∀ k, Writes P w chunkId originalSize k → InChunk hs chunkId k) ↔
      FitsChunk hs chunkId originalSize := by
  simp only [writes_iff lawful covers live, InChunk, Nat.lt_min, FitsChunk]
  constructor
  · intro hinside
    by_cases hempty : originalSize.toNat = 0
    · exact .inl hempty
    by_cases hfits : chunkOffset chunkId + originalSize.toNat ≤ hs.fileSize.toNat
    · -- the first and the last byte
      have hfirst := hinside (chunkOffset chunkId) ⟨hfits, le_rfl, by omega⟩
      have hlast := hinside (chunkOffset chunkId + originalSize.toNat - 1)
        ⟨hfits, by omega, by omega⟩
      exact .inr (.inr ⟨hfirst.1, by omega⟩)
    · exact .inr (.inl (Nat.not_le.mp hfits))
  · rintro hfits k ⟨hinside, hlow, hhigh⟩
    rcases hfits with hempty | houtside | ⟨hstart, hend⟩
    · omega
    · omega
    · exact ⟨hstart.trans hlow, hhigh.trans_le hend, hhigh.trans_le hinside⟩

/-! ## Messages that are handled to the end -/

/-- A message is handled to the end. -/
def Handled (P : Platform) (message : ChunkWireHeader × List UInt8) (w v : Endpoint) : Prop :=
  ∃ labels pc, (chunkCall P message.1 message.2 w).Run labels (pc, v) ∧ pc.left = 0

/-- Messages are handled one after another. -/
inductive HandledAll (P : Platform) :
    Endpoint → List (ChunkWireHeader × List UInt8) → Endpoint → Prop
  | nil {w : Endpoint} : HandledAll P w [] w
  | cons {w u v : Endpoint} {message : ChunkWireHeader × List UInt8}
      {messages : List (ChunkWireHeader × List UInt8)} (first : Handled P message w u)
      (others : HandledAll P u messages v) : HandledAll P w (message :: messages) v

/-- What holds of a call in a published view at every point. -/
structure Ongoing (P : Platform) (header : ChunkWireHeader) (payload : List UInt8)
    (w : Endpoint) (size : ℕ) (s : ChunkPc × Endpoint) : Prop where
  called : Called P header payload w s.1 s.2
  covers : Covers s.2.writeView size s.2
  view : s.2.writeView = w.writeView
  aesKey : s.2.aesKey = w.aesKey
  live : s.2.fault ≠ .crash

theorem ongoing_of_run {size : ℕ} (covers : Covers w.writeView size w) (live : w.fault ≠ .crash)
    {labels : List Unit} {s : ChunkPc × Endpoint}
    (run : (chunkCall P header payload w).Run labels s) :
    Ongoing P header payload w size s := by
  induction run with
  | start => exact ⟨.entered, covers, rfl, rfl, live⟩
  | @snoc _ s s' _ prior _ taken ih =>
      have hcalled := called_of_run (prior.snoc trivial taken)
      obtain ⟨hstep, hintact⟩ := Option.filter_eq_some_iff.mp taken
      have hframe := chunkFrame_of_chunkStep (chunkStep_of_processChunk hstep)
      refine ⟨hcalled, ⟨?_, ?_, ?_, ?_⟩, hframe.writeView.trans ih.view,
        hframe.aesKey.trans ih.aesKey, by simpa using hintact⟩
      · rw [hframe.serial, hframe.writeView, ih.covers.serial]
      · rw [hframe.viewSize, ih.covers.mapped]
      · rw [hframe.writeView, ih.covers.offset]
      · rw [hframe.writeView, ih.covers.size]

/-- A target in the view can be read throughout the call. -/
private theorem Ongoing.read_target {size : ℕ} {s : ChunkPc × Endpoint}
    (ongoing : Ongoing P header payload w size s)
    (inside : chunkOffset header.chunkId + header.originalSize.toNat ≤ w.writeView.size) :
    ∃ held, (w.target header).read s.2.fileMapper = some held := by
  rw [← ongoing.view, ongoing.covers.size] at inside
  have hread := read_viewSpan ongoing.covers inside
  rw [viewSpan, ongoing.view] at hread
  exact ⟨_, hread⟩

/-- What a call is about to read is there. -/
private theorem Ongoing.exists_held {size : ℕ} {s : ChunkPc × Endpoint} {target : Span}
    (ongoing : Ongoing P header payload w size s)
    (reads : s.1 = .check target ∨ ∃ plain, s.1 = .decompress target plain) :
    ∃ held, target.read s.2.fileMapper = some held := by
  obtain ⟨pc, v⟩ := s
  have hcalled : Called P header payload w pc v := ongoing.called
  rcases reads with rfl | ⟨plain, rfl⟩
  · cases hcalled with
    | written writable past =>
        rcases past with hpast | hpast | hpast
        · cases hpast
          exact ongoing.read_target writable.inside
        · cases hpast
        · cases hpast
    | marked _ past _ _ => cases past
  · cases hcalled with
    | opened _ inside _ => exact ongoing.read_target inside
    | written _ past => rcases past with hpast | hpast | hpast <;> cases hpast
    | marked _ past _ _ => cases past

/-- A call that is not at its end goes on. -/
private theorem exists_step_of_ongoing {size : ℕ} {s : ChunkPc × Endpoint}
    (ongoing : Ongoing P header payload w size s) (more : 0 < s.1.left) :
    ∃ next, (chunkCall P header payload w).step () s = some next ∧ next.1.left < s.1.left := by
  obtain ⟨pc, v⟩ := s
  have hlive : v.fault ≠ .crash := ongoing.live
  suffices hstep : ∃ next v', processChunk P header payload pc v = some (next, v') ∧
      v'.fault ≠ .crash ∧ next.left < pc.left by
    obtain ⟨next, v', htaken, hintact, hless⟩ := hstep
    exact ⟨(next, v'), Option.filter_eq_some_iff.mpr ⟨htaken, by simpa using hintact⟩, hless⟩
  cases pc with
  | enter =>
      simp only [processChunk]
      split
      · exact ⟨_, _, rfl, hlive, by simp⟩
      · split
        · exact ⟨_, _, rfl, hlive, by simp⟩
        · exact ⟨_, _, rfl, hlive, by simp⟩
  | decrypt target =>
      simp only [processChunk]
      split
      · exact ⟨_, _, rfl, hlive, by simp⟩
      · exact ⟨_, _, rfl, hlive, by simp⟩
  | decompress target plain =>
      obtain ⟨held, hread⟩ : ∃ held, target.read v.fileMapper = some held :=
        ongoing.exists_held (.inr ⟨plain, rfl⟩)
      simp only [processChunk, hread]
      split
      · exact ⟨_, _, rfl, hlive, by simp⟩
      · exact ⟨_, _, rfl, hlive, by simp⟩
  | check target =>
      obtain ⟨held, hread⟩ : ∃ held, target.read v.fileMapper = some held :=
        ongoing.exists_held (.inl rfl)
      simp only [processChunk, hread]
      split
      · exact ⟨_, _, rfl, hlive, by simp⟩
      · exact ⟨_, _, rfl, hlive, by simp⟩
  | mark =>
      simp only [processChunk]
      split
      · exact ⟨_, _, rfl, hlive, by simp⟩
      · exact ⟨_, _, rfl, by rintro ⟨⟩, by simp⟩
  | addBytes => exact ⟨_, _, rfl, hlive, by simp⟩
  | count => exact ⟨_, _, rfl, hlive, by simp⟩
  | report received =>
      refine ⟨_, _, rfl, ?_, by simp⟩
      rw [reportProgress_eq]
      exact hlive
  | compare received =>
      simp only [processChunk]
      split
      · exact ⟨_, _, rfl, hlive, by simp⟩
      · exact ⟨_, _, rfl, hlive, by simp⟩
  | dropped => cases more
  | stored received last => cases more

/-- In a published view every message can be handled to the end. -/
theorem exists_handled {size : ℕ} (covers : Covers w.writeView size w) (live : w.fault ≠ .crash)
    (message : ChunkWireHeader × List UInt8) : ∃ v, Handled P message w v := by
  obtain ⟨header, payload⟩ := message
  have hprogress : ∀ s, (∃ labels, (chunkCall P header payload w).Run labels s) → 0 < s.1.left →
      ∃ next, (chunkCall P header payload w).Leads (fun _ _ => True) s next ∧
        (∃ labels, (chunkCall P header payload w).Run labels next) ∧ next.1.left < s.1.left := by
    rintro s ⟨labels, hrun⟩ hmore
    obtain ⟨next, htaken, hless⟩ := exists_step_of_ongoing (ongoing_of_run covers live hrun) hmore
    exact ⟨next, Machine.leads_step () trivial htaken, ⟨_, hrun.snoc trivial htaken⟩, hless⟩
  obtain ⟨⟨pc, v⟩, -, ⟨labels, hrun⟩, hended⟩ :=
    Machine.exists_leads_of_progress hprogress ⟨[], .start⟩
  exact ⟨v, labels, pc, hrun, hended⟩

/-- A message that was handled was refused, or its chunk was written. -/
theorem handled_cases {message : ChunkWireHeader × List UInt8} {v : Endpoint}
    (handled : Handled P message w v) :
    v = w ∧ Refused P message.1 message.2 w ∨
      ∃ plain held, Writable P message.1 message.2 w plain held ∧ v.fileMapper =
        (w.target message.1).write (leftBytes P message.1 plain held) w.fileMapper := by
  obtain ⟨labels, pc, hrun, hended⟩ := handled
  cases called_of_run hrun with
  | entered | targeted _ _ | opened _ _ _ => cases hended
  | refused reason => exact .inl ⟨rfl, reason⟩
  | @written plain held _ writable _ => exact .inr ⟨plain, held, writable, rfl⟩
  | @marked plain held _ _ writable _ _ bytes => exact .inr ⟨plain, held, writable, bytes⟩

/-! ## The messages of a whole file -/

/-- A message carries a chunk of a file: its header has the length and the checksum of the chunk,
and its payload opens to something that the chunk is restored from. -/
structure Carries (P : Platform) (hs : Handshake) (key file : List UInt8)
    (message : ChunkWireHeader × List UInt8) : Prop where
  originalSize : message.1.originalSize.toNat = (announcedChunk hs file message.1.chunkId).length
  crc32 : message.1.crc32 = Hasher.crc32 (announcedChunk hs file message.1.chunkId)
  opens : ∃ plain, Crypto.decrypt P.ssl message.2 key message.1.chunkId = some plain ∧
    ∀ held, held.length = (announcedChunk hs file message.1.chunkId).length →
      ∃ written, SmartCompressor.decompress P.codecs plain held
        (Strategy.ofByte message.1.compressStra) =
          (some written, announcedChunk hs file message.1.chunkId)

/-- Messages carry chunks of a file, and all of them. -/
structure CarryFile (P : Platform) (hs : Handshake) (key file : List UInt8)
    (messages : List (ChunkWireHeader × List UInt8)) : Prop where
  carries : ∀ message ∈ messages, Carries P hs key file message
  all : ∀ chunkId < hs.totalChunks, ∃ message ∈ messages, message.1.chunkId = chunkId

/-- Every chunk of a file can be carried by a message. -/
theorem exists_carries (lawful : P.ssl.Lawful) (hs : Handshake) (key file : List UInt8)
    (chunkId : UInt32) :
    ∃ message : ChunkWireHeader × List UInt8, message.1.chunkId = chunkId ∧
      Carries P hs key file message := by
  obtain ⟨sealed, -, -, hopened⟩ :=
    Crypto.decrypt_encrypt lawful (announcedChunk hs file chunkId) key chunkId
  have hsmall : (announcedChunk hs file chunkId).length < 2 ^ 32 := by
    refine Nat.lt_of_le_of_lt ?_ hs.chunkSize.toNat_lt
    rw [announcedChunk, Buffer.length_block]
    exact Nat.min_le_left _ _
  let header : ChunkWireHeader :=
    { chunkId := chunkId, compressedSize := 0,
      originalSize := UInt32.ofNat (announcedChunk hs file chunkId).length,
      crc32 := Hasher.crc32 (announcedChunk hs file chunkId),
      compressStra := Strategy.NONE.toByte }
  refine ⟨(header, sealed), rfl, UInt32.toNat_ofNat_of_lt hsmall, rfl, _, hopened, ?_⟩
  intro held hlength
  have hstrategy : Strategy.ofByte header.compressStra = some .NONE := rfl
  refine ⟨(announcedChunk hs file chunkId).length, ?_⟩
  rw [hstrategy, SmartCompressor.decompress, if_neg (Nat.not_lt.mpr hlength.ge)]
  have hover : Buffer.overwrite held 0 (announcedChunk hs file chunkId) =
      announcedChunk hs file chunkId := by
    rw [Buffer.overwrite, List.take_zero, List.nil_append, Nat.zero_add,
      List.drop_eq_nil_of_le hlength.le, List.append_nil]
  rw [hover]

/-- There are messages for every file. -/
theorem exists_carryFile (lawful : P.ssl.Lawful) (hs : Handshake) (key file : List UInt8) :
    ∃ messages, CarryFile P hs key file messages ∧
      ∀ message ∈ messages, message.1.chunkId < hs.totalChunks := by
  choose message hid hcarries using exists_carries lawful hs key file
  refine ⟨(List.range hs.totalChunks.toNat).map fun i => message (UInt32.ofNat i), ⟨?_, ?_⟩, ?_⟩
  · intro entry hmem
    obtain ⟨i, -, rfl⟩ := List.mem_map.mp hmem
    exact hcarries _
  · intro chunkId hlt
    refine ⟨message chunkId, List.mem_map.mpr ⟨chunkId.toNat, ?_, ?_⟩, hid chunkId⟩
    · exact List.mem_range.mpr (UInt32.lt_iff_toNat_lt.mp hlt)
    · rw [UInt32.ofNat_toNat]
  · intro entry hmem
    obtain ⟨i, hi, rfl⟩ := List.mem_map.mp hmem
    rw [hid, UInt32.lt_iff_toNat_lt, UInt32.toNat_ofNat']
    exact Nat.lt_of_le_of_lt (Nat.mod_le _ _) (List.mem_range.mp hi)

/-- A handled message that carries a chunk puts it where the size of chunks at compile time places
it, if it ends inside of the view there. -/
theorem getElem?_of_handled {hs : Handshake} {size k : ℕ} {file : List UInt8}
    {message : ChunkWireHeader × List UInt8} {v : Endpoint} (covers : Covers w.writeView size w)
    (carries : Carries P hs w.aesKey file message) (handled : Handled P message w v) :
    v.mappedBytes[k]? =
      if chunkOffset message.1.chunkId + message.1.originalSize.toNat ≤ size ∧
          chunkOffset message.1.chunkId ≤ k ∧
          k < chunkOffset message.1.chunkId + message.1.originalSize.toNat then
        (announcedChunk hs file message.1.chunkId)[k - chunkOffset message.1.chunkId]?
      else w.mappedBytes[k]? := by
  obtain ⟨plain, hopened, hrestored⟩ := carries.opens
  rcases handled_cases handled with ⟨rfl, hrefused⟩ | ⟨plain', held, writable, hbytes⟩
  · rw [if_neg]
    rw [Refused, covers.size, hopened] at hrefused
    rcases hrefused with hempty | houtside | hsealed
    · omega
    · omega
    · cases hsealed
  · obtain rfl : plain' = plain := Option.some.inj (writable.opened.symm.trans hopened)
    obtain ⟨hfits, -⟩ := writable.held_eq covers
    have hheld := writable.length_held covers
    obtain ⟨written, hresult⟩ := hrestored held (hheld.trans carries.originalSize)
    have hleft : leftBytes P message.1 plain' held =
        announcedChunk hs file message.1.chunkId := by
      rw [leftBytes, hresult]
    rw [mappedBytes_of_written writable covers hbytes, hleft,
      Buffer.getElem?_overwrite (carries.originalSize ▸ hfits), ← carries.originalSize]
    rw [length_mappedBytes covers] at hfits
    simp only [hfits, true_and]

/-- What handling a message keeps. -/
theorem kept_of_handled {size : ℕ} {message : ChunkWireHeader × List UInt8} {v : Endpoint}
    (covers : Covers w.writeView size w) (live : w.fault ≠ .crash)
    (handled : Handled P message w v) :
    Covers v.writeView size v ∧ v.aesKey = w.aesKey ∧ v.fault ≠ .crash := by
  obtain ⟨labels, pc, hrun, -⟩ := handled
  have hongoing := ongoing_of_run covers live hrun
  exact ⟨hongoing.covers, hongoing.aesKey, hongoing.live⟩

/-- In a published view messages can be handled one after another. -/
theorem exists_handledAll {size : ℕ} (covers : Covers w.writeView size w)
    (live : w.fault ≠ .crash) (messages : List (ChunkWireHeader × List UInt8)) :
    ∃ v, HandledAll P w messages v := by
  induction messages generalizing w with
  | nil => exact ⟨w, .nil⟩
  | cons message messages ih =>
      obtain ⟨u, hfirst⟩ := exists_handled (P := P) covers live message
      obtain ⟨hcovers, -, hlive⟩ := kept_of_handled covers live hfirst
      obtain ⟨v, hothers⟩ := ih hcovers hlive
      exact ⟨v, .cons hfirst hothers⟩

/-- Where the size of chunks at compile time places a chunk of a file, its bytes are, if chunks have
that size or there is only one. -/
private theorem placed_iff {hs : Handshake} {file : List UInt8} {chunkId : UInt32} {k n : ℕ}
    (length : file.length = hs.fileSize.toNat)
    (sizes : hs.chunkSize.toNat = Chunker.kDefaultChunkSize ∨
      hs.fileSize.toNat ≤ hs.chunkSize.toNat)
    (whole : n = (announcedChunk hs file chunkId).length) :
    (chunkOffset chunkId + n ≤ hs.fileSize.toNat ∧ chunkOffset chunkId ≤ k ∧
      k < chunkOffset chunkId + n) ↔ InChunk hs chunkId k := by
  rw [announcedChunk, Buffer.length_block, length] at whole
  rw [InChunk, Nat.lt_min, Nat.add_mul, Nat.one_mul]
  rcases sizes with hsame | hsingle
  · rw [chunkOffset, ← hsame]
    omega
  · rcases Nat.eq_zero_or_pos chunkId.toNat with hzero | hpos
    · rw [chunkOffset, hzero, Nat.zero_mul, Nat.zero_mul]
      rw [hzero, Nat.zero_mul] at whole
      omega
    · have hbeyond : hs.chunkSize.toNat ≤ chunkId.toNat * hs.chunkSize.toNat :=
        Nat.le_mul_of_pos_left _ hpos
      omega

/-- In such a geometry a handled message brings the bytes of its chunk to those of the file. -/
private theorem getElem?_of_placed {hs : Handshake} {k : ℕ} {file : List UInt8}
    {message : ChunkWireHeader × List UInt8} {v : Endpoint}
    (covers : Covers w.writeView hs.fileSize.toNat w) (length : file.length = hs.fileSize.toNat)
    (sizes : hs.chunkSize.toNat = Chunker.kDefaultChunkSize ∨
      hs.fileSize.toNat ≤ hs.chunkSize.toNat)
    (carries : Carries P hs w.aesKey file message) (handled : Handled P message w v) :
    v.mappedBytes[k]? =
      if InChunk hs message.1.chunkId k then file[k]? else w.mappedBytes[k]? := by
  rw [getElem?_of_handled covers carries handled]
  simp only [placed_iff length sizes carries.originalSize]
  split
  · rename_i hin
    have hplace : chunkOffset message.1.chunkId =
        message.1.chunkId.toNat * hs.chunkSize.toNat := by
      rcases sizes with hsame | hsingle
      · rw [chunkOffset, hsame]
      · obtain ⟨hlow, hhigh⟩ := hin
        rw [Nat.lt_min] at hhigh
        have hzero : message.1.chunkId.toNat = 0 := by
          by_contra hne
          have hbeyond := Nat.le_mul_of_pos_left hs.chunkSize.toNat (Nat.pos_of_ne_zero hne)
          omega
        rw [chunkOffset, hzero, Nat.zero_mul, Nat.zero_mul]
    obtain ⟨hlow, hhigh⟩ := hin
    rw [Nat.lt_min, Nat.add_mul, Nat.one_mul] at hhigh
    rw [announcedChunk, Buffer.getElem?_block, hplace, if_pos (by omega),
      Nat.add_sub_of_le hlow]
  · rfl

/-- So do messages one after another, each for its own chunk. -/
private theorem getElem?_of_handledAll {hs : Handshake} {k : ℕ} {file : List UInt8}
    {messages : List (ChunkWireHeader × List UInt8)} {v : Endpoint}
    (covers : Covers w.writeView hs.fileSize.toNat w) (live : w.fault ≠ .crash)
    (length : file.length = hs.fileSize.toNat)
    (sizes : hs.chunkSize.toNat = Chunker.kDefaultChunkSize ∨
      hs.fileSize.toNat ≤ hs.chunkSize.toNat)
    (carries : ∀ message ∈ messages, Carries P hs w.aesKey file message)
    (handled : HandledAll P w messages v) :
    Covers v.writeView hs.fileSize.toNat v ∧ v.mappedBytes[k]? =
      if ∃ message ∈ messages, InChunk hs message.1.chunkId k then file[k]?
      else w.mappedBytes[k]? := by
  induction handled with
  | nil => exact ⟨covers, by simp⟩
  | @cons w u v message messages first others ih =>
      obtain ⟨hcovers, hkey, hlive⟩ := kept_of_handled covers live first
      have hplaced := getElem?_of_placed (k := k) covers length sizes
        (carries message List.mem_cons_self) first
      obtain ⟨hcovered, hrest⟩ := ih hcovers hlive fun other hmem =>
        hkey ▸ carries other (List.mem_cons_of_mem _ hmem)
      refine ⟨hcovered, ?_⟩
      rw [hrest, hplaced]
      simp only [List.exists_mem_cons_iff]
      by_cases hlater : ∃ other ∈ messages, InChunk hs other.1.chunkId k
      · rw [if_pos hlater, if_pos (.inr hlater)]
      · simp only [hlater, or_false, if_false]

/-- A byte that no message of the file is placed at stays as it was. -/
private theorem untouched_of_handledAll {hs : Handshake} {size k : ℕ} {file : List UInt8}
    {messages : List (ChunkWireHeader × List UInt8)} {v : Endpoint}
    (covers : Covers w.writeView size w) (live : w.fault ≠ .crash)
    (carries : ∀ message ∈ messages, Carries P hs w.aesKey file message)
    (elsewhere : ∀ message ∈ messages, ¬ (chunkOffset message.1.chunkId ≤ k ∧
      k < chunkOffset message.1.chunkId + message.1.originalSize.toNat))
    (handled : HandledAll P w messages v) : v.mappedBytes[k]? = w.mappedBytes[k]? := by
  induction handled with
  | nil => rfl
  | @cons w u v message messages first others ih =>
      obtain ⟨hcovers, hkey, hlive⟩ := kept_of_handled covers live first
      have hfirst := getElem?_of_handled (k := k) covers (carries message List.mem_cons_self) first
      rw [if_neg fun h => elsewhere message List.mem_cons_self h.2] at hfirst
      rw [ih hcovers hlive (fun other hmem => hkey ▸ carries other (List.mem_cons_of_mem _ hmem))
        fun other hmem => elsewhere other (List.mem_cons_of_mem _ hmem), hfirst]

/-! ## The frame of the writes -/

/-- Chunks change bytes of their own only, so that no two of them change one byte, and in every
order the messages of all chunks of a file store this file. -/
structure WriteFrame (P : Platform) (hs : Handshake) (w : Endpoint)
    (sizes : List (UInt32 × UInt32)) : Prop where
  inside : ∀ entry ∈ sizes, ∀ k, Writes P w entry.1 entry.2 k → InChunk hs entry.1 k
  apart : ∀ first ∈ sizes, ∀ second ∈ sizes, first.1 ≠ second.1 →
    ∀ k, ¬ (Writes P w first.1 first.2 k ∧ Writes P w second.1 second.2 k)
  covered : ∀ file : List UInt8, file.length = hs.fileSize.toNat →
    ∀ messages, CarryFile P hs w.aesKey file messages →
      ∀ v, HandledAll P w messages v → v.mappedBytes = file

/-- The announced chunks are enough for the announced file, and they have the size of chunks at
compile time unless one is enough. -/
def Tiles (hs : Handshake) : Prop :=
  hs.fileSize.toNat ≤ hs.totalChunks.toNat * hs.chunkSize.toNat ∧
    (hs.chunkSize.toNat = Chunker.kDefaultChunkSize ∨ hs.fileSize.toNat ≤ hs.chunkSize.toNat)

instance (hs : Handshake) : Decidable (Tiles hs) :=
  inferInstanceAs (Decidable (_ ∧ _))

/-- Where chunks do not tile the file, some byte of it belongs to none of those that are placed. -/
private theorem exists_gap {hs : Handshake} (untiled : ¬ Tiles hs) :
    ∃ k < hs.fileSize.toNat, ∀ chunkId < hs.totalChunks, ∀ n ≤ hs.chunkSize.toNat,
      n ≤ hs.fileSize.toNat - chunkId.toNat * hs.chunkSize.toNat →
        ¬ (chunkOffset chunkId ≤ k ∧ k < chunkOffset chunkId + n) := by
  rw [Tiles, not_and_or, not_le, not_or, not_le] at untiled
  by_cases hsingle : hs.fileSize.toNat ≤ hs.chunkSize.toNat
  · -- there is no chunk at all
    have hfew : hs.totalChunks.toNat * hs.chunkSize.toNat < hs.fileSize.toNat :=
      untiled.resolve_right fun h => Nat.not_lt.mpr hsingle h.2
    have hnone : hs.totalChunks.toNat = 0 := by
      by_contra hne
      have hbeyond := Nat.le_mul_of_pos_left hs.chunkSize.toNat (Nat.pos_of_ne_zero hne)
      omega
    refine ⟨0, by omega, fun chunkId hlt => ?_⟩
    rw [UInt32.lt_iff_toNat_lt, hnone] at hlt
    exact (Nat.not_lt_zero _ hlt).elim
  rw [Nat.not_le] at hsingle
  rcases Nat.lt_trichotomy hs.chunkSize.toNat Chunker.kDefaultChunkSize with
    hsmall | hsame | hlarge
  · -- the byte behind chunk 0: the other chunks are placed too far away
    refine ⟨hs.chunkSize.toNat, hsingle, fun chunkId _ n hn _ => ?_⟩
    rw [chunkOffset]
    rcases Nat.eq_zero_or_pos chunkId.toNat with hzero | hpos
    · rw [hzero, Nat.zero_mul]
      omega
    · have hfar : Chunker.kDefaultChunkSize ≤ chunkId.toNat * Chunker.kDefaultChunkSize :=
        Nat.le_mul_of_pos_left _ hpos
      omega
  · -- the byte behind the last chunk
    have hfew : hs.totalChunks.toNat * hs.chunkSize.toNat < hs.fileSize.toNat :=
      untiled.resolve_right fun h => h.1 hsame
    refine ⟨_, hfew, fun chunkId hlt n hn _ => ?_⟩
    have hbefore : (chunkId.toNat + 1) * hs.chunkSize.toNat ≤
        hs.totalChunks.toNat * hs.chunkSize.toNat :=
      Nat.mul_le_mul_right _ (UInt32.lt_iff_toNat_lt.mp hlt)
    rw [Nat.add_mul, Nat.one_mul] at hbefore
    rw [chunkOffset, ← hsame]
    omega
  · -- the last byte: every chunk is placed too early
    refine ⟨hs.fileSize.toNat - 1, by omega, fun chunkId _ n hn hrest => ?_⟩
    have hearly : chunkId.toNat * Chunker.kDefaultChunkSize ≤
        chunkId.toNat * hs.chunkSize.toNat :=
      Nat.mul_le_mul_left _ hlarge.le
    rw [chunkOffset]
    rcases Nat.eq_zero_or_pos chunkId.toNat with hzero | hpos
    · rw [hzero, Nat.zero_mul]
      omega
    · have hless : chunkId.toNat * Chunker.kDefaultChunkSize <
          chunkId.toNat * hs.chunkSize.toNat :=
        Nat.mul_lt_mul_of_pos_left hlarge hpos
      omega

/-- The messages of all chunks store the file, whatever it is, exactly if chunks tile it. -/
theorem covered_iff (lawful : P.ssl.Lawful) {hs : Handshake}
    (covers : Covers w.writeView hs.fileSize.toNat w) (live : w.fault ≠ .crash) :
    (∀ file : List UInt8, file.length = hs.fileSize.toNat →
      ∀ messages, CarryFile P hs w.aesKey file messages →
        ∀ v, HandledAll P w messages v → v.mappedBytes = file) ↔ Tiles hs := by
  constructor
  · intro hcovered
    by_contra huntiled
    obtain ⟨k, hk, hgap⟩ := exists_gap huntiled
    -- a file that has no byte in common with the view
    let file := w.mappedBytes.map (· + 1)
    have hlength : file.length = hs.fileSize.toNat :=
      (List.length_map _).trans (length_mappedBytes covers)
    obtain ⟨messages, hcarry, hids⟩ := exists_carryFile lawful hs w.aesKey file
    obtain ⟨v, hhandled⟩ := exists_handledAll covers live messages
    have hstored := hcovered file hlength messages hcarry v hhandled
    have hsame : v.mappedBytes[k]? = w.mappedBytes[k]? := by
      refine untouched_of_handledAll covers live hcarry.carries (fun message hmem => ?_) hhandled
      have hsize := (hcarry.carries message hmem).originalSize
      rw [announcedChunk, Buffer.length_block, hlength] at hsize
      exact hgap _ (hids message hmem) _ (hsize ▸ Nat.min_le_left _ _)
        (hsize ▸ Nat.min_le_right _ _)
    have hbyte : k < w.mappedBytes.length := (length_mappedBytes covers).symm ▸ hk
    rw [hstored, List.getElem?_map, List.getElem?_eq_getElem hbyte, Option.map_some,
      Option.some.injEq] at hsame
    exact absurd hsame (by simp)
  · rintro ⟨henough, hsizes⟩ file hlength messages hcarry v hhandled
    have hbytes (k : ℕ) := getElem?_of_handledAll (k := k) covers live hlength hsizes
      hcarry.carries hhandled
    have hsize : v.mappedBytes.length = hs.fileSize.toNat :=
      length_mappedBytes (hbytes 0).1
    apply List.ext_getElem?
    intro k
    by_cases hk : k < hs.fileSize.toNat
    · obtain ⟨chunkId, hlt, hin⟩ := exists_inChunk hk henough
      obtain ⟨message, hmem, rfl⟩ := hcarry.all chunkId hlt
      rw [(hbytes k).2, if_pos ⟨message, hmem, hin⟩]
    · rw [List.getElem?_eq_none (by omega), List.getElem?_eq_none (by omega)]

/-- While the view of a handshake is published, chunks are written by the geometry of the
handshake exactly if each fits its place, and they tile the file. -/
theorem writeFrame_iff (lawful : P.ssl.Lawful) {hs : Handshake}
    (covers : Covers w.writeView hs.fileSize.toNat w) (live : w.fault ≠ .crash)
    (sizes : List (UInt32 × UInt32)) :
    WriteFrame P hs w sizes ↔
      (∀ entry ∈ sizes, FitsChunk hs entry.1 entry.2) ∧ Tiles hs := by
  have hfits (entry : UInt32 × UInt32) :
      (∀ k, Writes P w entry.1 entry.2 k → InChunk hs entry.1 k) ↔ FitsChunk hs entry.1 entry.2 :=
    inside_iff lawful covers live
  constructor
  · intro hframe
    exact ⟨fun entry hmem => (hfits entry).mp (hframe.inside entry hmem),
      (covered_iff lawful covers live).mp hframe.covered⟩
  · rintro ⟨hall, htiles⟩
    have hinside : ∀ entry ∈ sizes, ∀ k, Writes P w entry.1 entry.2 k → InChunk hs entry.1 k :=
      fun entry hmem => (hfits entry).mpr (hall entry hmem)
    refine ⟨hinside, fun first hfirst second hsecond hne k hboth => hne ?_,
      (covered_iff lawful covers live).mpr htiles⟩
    exact (hinside first hfirst k hboth.1).unique (hinside second hsecond k hboth.2)

/-- A target of at most one chunk fits when the handshake announces the size of chunks that the
code has. -/
theorem fitsChunk_of_announced {hs : Handshake} {chunkId originalSize : UInt32}
    (same : hs.chunkSize.toNat = Chunker.kDefaultChunkSize)
    (small : originalSize.toNat ≤ Chunker.kDefaultChunkSize) :
    FitsChunk hs chunkId originalSize := by
  refine .inr (.inr ⟨?_, ?_⟩)
  · rw [same, chunkOffset]
  · rw [same, chunkOffset, Nat.add_mul, Nat.one_mul]
    omega

/-- After an accepted handshake that announces chunks its view is published, in every run
that accepts handshakes one at a time. -/
theorem covers_of_accepted {outputDir : Path} {pin : UInt32} {onProgress : Bool}
    {disk : List Path} {events : List Event} {w : Endpoint} {hs : Handshake}
    (run : (machine P (recvFile outputDir pin onProgress disk)).RunUnder OneAtATime events w)
    (accepted : Task.handshake hs .accepted ∈ w.tasks) (nonempty : hs.totalChunks ≠ 0) :
    Covers w.writeView hs.fileSize.toNat w := by
  have hexclusive := exclusive_run (fun _ _ h => h) run
  have hholds : (Task.handshake hs .accepted).holds = true := by simp [Task.holds, nonempty]
  exact (hexclusive.stage hs .accepted accepted hholds).2.2

/-- The chunk of a receiver of one byte keeps to the file and makes it up. -/
theorem writeFrame_of_storedA :
    WriteFrame KnownAnswers.platform (Handshake.decode (KnownAnswers.handshakeMessage 123456 1 1))
      storedA [(0, 1)] := by
  have hcovers : Covers storedA.writeView
      (Handshake.decode (KnownAnswers.handshakeMessage 123456 1 1)).fileSize.toNat storedA :=
    ⟨by decide +kernel, by decide +kernel, by decide +kernel, by decide +kernel⟩
  refine (writeFrame_iff KnownAnswers.ssl_lawful hcovers (by decide +kernel) _).mpr
    ⟨fun entry hmem => ?_, by decide +kernel⟩
  rw [List.mem_singleton.mp hmem]
  exact fitsChunk_of_announced (by decide +kernel) (by decide +kernel)

/-- A handshake for a file of two bytes in chunks of one byte. -/
def smallChunks : Handshake where
  pin := 123456
  fileSize := 2
  chunkSize := 1
  totalChunks := 2
  fileName := Handshake.nameField [97]

/-- That handshake arrives and is handled to the end. -/
def smallChunksEvents : List Event :=
  .deliver smallChunks.encode :: KnownAnswers.steps 0 11

/-- A message of chunk 0 with two bytes writes the byte of chunk 1. -/
theorem not_writeFrame_of_longChunk :
    ¬ ∀ (P : Platform) (outputDir : Path) (pin : UInt32) (onProgress : Bool) (disk : List Path)
      (events : List Event) (w : Endpoint) (hs : Handshake), P.ssl.Lawful →
      (machine P (recvFile outputDir pin onProgress disk)).RunUnder OneAtATime events w →
        Task.handshake hs .accepted ∈ w.tasks → hs.totalChunks ≠ 0 →
          ∀ sizes, WriteFrame P hs w sizes := by
  intro frame
  have hrun : KnownAnswers.session.RunUnder OneAtATime smallChunksEvents
      (KnownAnswers.session.reached smallChunksEvents) :=
    Machine.runUnder_reached (by decide +kernel)
  have haccepted : Task.handshake smallChunks .accepted ∈
      (KnownAnswers.session.reached smallChunksEvents).tasks := by decide +kernel
  have hframe := frame KnownAnswers.platform KnownAnswers.outputDir 123456 false
    [KnownAnswers.outputDir] _ _ smallChunks KnownAnswers.ssl_lawful hrun haccepted (by decide)
    [(0, 2)]
  have hcovers := covers_of_accepted hrun haccepted (by decide)
  have hwrites : Writes KnownAnswers.platform (KnownAnswers.session.reached smallChunksEvents)
      0 2 1 :=
    (writes_iff KnownAnswers.ssl_lawful hcovers (by decide +kernel)).mpr (by decide +kernel)
  have hinside := hframe.inside (0, 2) List.mem_cons_self 1 hwrites
  revert hinside
  decide +kernel

end Endpoint

end Sxaint.Net
