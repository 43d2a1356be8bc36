/-
# Decoding inside the message

Where `handleRecv` and what it starts read a message. The struct of a handshake, the header
of a chunk and its payload are compared with the length of the message before they are
copied. The bits of an acknowledgement are not: their number is taken from the message and
never compared with the bytes that follow it. And the name of a handshake is read up to its
first zero byte, which need not be in its field.
-/

import Mathlib.Data.List.TakeWhile
import Sxaint.Net.Gating

namespace Sxaint.Net

open Sxaint.Core

/-- The length that a message announces by its kind and its own fields. -/
def announcedSize (data : List UInt8) : ℕ :=
  match messageKind data with
  | some .handshake => Handshake.size
  | some .handshakeAck =>
    if data.length < HandshakeAck.size then HandshakeAck.size
    else HandshakeAck.size + ((HandshakeAck.decode data).totalChunks.toNat + 7) / 8
  | some .handshakeReject => 1
  | some .chunkData =>
    if data.length < ChunkWireHeader.size then ChunkWireHeader.size
    else ChunkWireHeader.size + (ChunkWireHeader.decode data).compressedSize.toNat
  | none => 0

/-- The offset of the name in a handshake. -/
def fileNameOffset : ℕ := 21

/-- The positions that the name is read from as a C string: up to the first zero byte, and one
beyond the field if there is none in it. -/
def nameReads (hs : Handshake) : List ℕ :=
  List.range' fileNameOffset ((hs.fileName.takeWhile (· != 0)).length + 1)

namespace Endpoint

variable {P : Platform}

/-- The positions that `handleRecv` reads behind the type of a message of some kind. -/
def fieldReads (kind : MessageType) (data : List UInt8) (w : Endpoint) : List ℕ :=
  match kind with
  | .handshake => if Handshake.size ≤ data.length then List.range Handshake.size else []
  | .handshakeAck =>
    if w.handshakeAcked then []
    else if data.length < HandshakeAck.size then []
    else
      List.range HandshakeAck.size ++
        List.range' HandshakeAck.size (data.length - HandshakeAck.size) ++
        (List.range (HandshakeAck.decode data).totalChunks.toNat).map
          fun i => HandshakeAck.size + i / 8
  | .handshakeReject => []
  | .chunkData =>
    if data.length < ChunkWireHeader.size then []
    else
      let compressedSize := (ChunkWireHeader.decode data).compressedSize.toNat
      List.range ChunkWireHeader.size ++
        if data.length < ChunkWireHeader.size + compressedSize then []
        else List.range' ChunkWireHeader.size compressedSize

/-- The positions of a message that `handleRecv` reads. -/
def reads (data : List UInt8) (w : Endpoint) : List ℕ :=
  match data with
  | [] => []
  | type :: _ =>
    0 ::
      match MessageType.ofByte type with
      | some kind => fieldReads kind data w
      | none => []

/-- The positions of a handshake message that its task reads the name from, if the session
in which it looks at the handshake accepts it. The task has a copy of the struct. -/
def taskReads (data : List UInt8) (v : Endpoint) : List ℕ :=
  match handshakeIn data with
  | some hs => if v.expectedChunks = 0 ∧ hs.pin = v.expectedPin then nameReads hs else []
  | none => []

/-- A message that arrives in one state of a session, and whose handshake is looked at in
another one, is decoded inside the message, and ignored if it is too short. -/
structure DecodesInside (data : List UInt8) (w v : Endpoint) : Prop where
  handler : ∀ k ∈ reads data w, k < data.length
  task : ∀ k ∈ taskReads data v, k < min data.length Handshake.size
  short : data.length < announcedSize data → handleRecv data w = w

/-- A first acknowledgement has its bits, and an accepted handshake a name with an end. -/
def Decodable (data : List UInt8) (w v : Endpoint) : Prop :=
  (w.handshakeAcked = false → messageKind data = some .handshakeAck → CarriesBits data) ∧
    ∀ hs ∈ handshakeIn data, v.expectedChunks = 0 → hs.pin = v.expectedPin → 0 ∈ hs.fileName

/-- The bits of an acknowledgement lie in it exactly if it carries them. -/
theorem bitReads_iff {data : List UInt8} (whole : HandshakeAck.size ≤ data.length) :
    (∀ k ∈ (List.range (HandshakeAck.decode data).totalChunks.toNat).map
        fun i => HandshakeAck.size + i / 8, k < data.length) ↔ CarriesBits data := by
  constructor
  · intro hinside _
    by_cases hnone : (HandshakeAck.decode data).totalChunks.toNat = 0
    · rw [hnone]
      exact Nat.zero_le _
    · have hlast := hinside _ (List.mem_map_of_mem (List.mem_range.mpr
        (Nat.sub_lt (Nat.pos_of_ne_zero hnone) Nat.one_pos)))
      omega
  · intro hcarries k hk
    obtain ⟨i, hi, rfl⟩ := List.mem_map.mp hk
    have hlt := List.mem_range.mp hi
    have hbytes := hcarries whole
    omega

/-- The name lies in its field exactly if it ends there. -/
theorem nameReads_iff {hs : Handshake} (field : hs.fileName.length = fileNameSize) :
    (∀ k ∈ nameReads hs, k < Handshake.size) ↔ 0 ∈ hs.fileName := by
  have hread (k : ℕ) : k ∈ nameReads hs ↔ fileNameOffset ≤ k ∧
      k < fileNameOffset + ((hs.fileName.takeWhile (· != 0)).length + 1) := by
    rw [nameReads, List.mem_range'_1]
  have hend : fileNameOffset + hs.fileName.length = Handshake.size := by
    rw [field]
    rfl
  have hsplit : (hs.fileName.takeWhile (· != 0)).length +
      (hs.fileName.dropWhile (· != 0)).length = hs.fileName.length := by
    rw [← List.length_append, List.takeWhile_append_dropWhile]
  constructor
  · intro hinside
    by_contra hendless
    have hwhole : hs.fileName.takeWhile (· != 0) = hs.fileName := by
      apply List.takeWhile_eq_self_iff.mpr
      intro byte hbyte
      rw [bne_iff_ne]
      rintro rfl
      exact hendless hbyte
    have hbeyond := hinside Handshake.size ((hread _).mpr (by rw [hwhole]; omega))
    omega
  · intro hends k hk
    have hrest : hs.fileName.dropWhile (· != 0) ≠ [] := by
      intro hnil
      have hall := List.dropWhile_eq_nil_iff.mp hnil 0 hends
      cases hall
    have hpos := List.length_pos_iff.mpr hrest
    have hbound := (hread k).mp hk
    omega

/-- What is read of an announced kind lies in the message, but for the bits of a first
acknowledgement that does not carry them. -/
theorem fieldReads_iff {kind : MessageType} {data : List UInt8} {w : Endpoint} :
    (∀ k ∈ fieldReads kind data w, k < data.length) ↔
      (w.handshakeAcked = false → kind = .handshakeAck → CarriesBits data) := by
  cases kind with
  | handshake =>
      rw [fieldReads]
      split
      · rename_i hwhole
        refine iff_of_true (fun k hk => ?_) (by rintro - ⟨⟩)
        have hlt := List.mem_range.mp hk
        omega
      · exact iff_of_true (by rintro _ ⟨⟩) (by rintro - ⟨⟩)
  | handshakeReject => exact iff_of_true (by rintro _ ⟨⟩) (by rintro - ⟨⟩)
  | chunkData =>
      refine iff_of_true (fun k hk => ?_) (by rintro - ⟨⟩)
      rw [fieldReads] at hk
      split at hk
      · cases hk
      · rename_i hheader
        rcases List.mem_append.mp hk with hstruct | hpayload
        · have hlt := List.mem_range.mp hstruct
          omega
        · split at hpayload
          · cases hpayload
          · rename_i hwhole
            have hlt := (List.mem_range'_1.mp hpayload).2
            omega
  | handshakeAck =>
      rw [fieldReads]
      by_cases hacked : w.handshakeAcked = true
      · rw [if_pos hacked]
        refine iff_of_true (by rintro _ ⟨⟩) fun hunacked => ?_
        rw [hunacked] at hacked
        cases hacked
      · rw [if_neg hacked]
        by_cases hshort : data.length < HandshakeAck.size
        · rw [if_pos hshort]
          exact iff_of_true (by rintro _ ⟨⟩) fun _ _ hwhole => (hshort.not_ge hwhole).elim
        · rw [if_neg hshort, List.forall_mem_append, List.forall_mem_append,
            bitReads_iff (not_lt.mp hshort)]
          have hstruct : ∀ k ∈ List.range HandshakeAck.size, k < data.length := by
            intro k hk
            have hlt := List.mem_range.mp hk
            omega
          have hrest : ∀ k ∈ List.range' HandshakeAck.size (data.length - HandshakeAck.size),
              k < data.length := by
            intro k hk
            have hlt := (List.mem_range'_1.mp hk).2
            omega
          exact ⟨fun h _ _ => h.2, fun h =>
            ⟨⟨hstruct, hrest⟩, h (Bool.eq_false_iff.mpr hacked) rfl⟩⟩

/-- `handleRecv` reads inside the message exactly if a first acknowledgement carries its
bits. -/
theorem reads_iff {data : List UInt8} {w : Endpoint} :
    (∀ k ∈ reads data w, k < data.length) ↔
      (w.handshakeAcked = false → messageKind data = some .handshakeAck → CarriesBits data) := by
  cases data with
  | nil => exact iff_of_true (by rintro _ ⟨⟩) (by rintro - ⟨⟩)
  | cons type rest =>
      have hnonempty := List.length_pos_of_ne_nil (List.cons_ne_nil type rest)
      rw [reads, List.forall_mem_cons, and_iff_right hnonempty]
      cases hkind : MessageType.ofByte type with
      | none =>
          refine iff_of_true (by rintro _ ⟨⟩) fun _ hack => ?_
          cases hkind.symm.trans hack
      | some kind =>
          dsimp only
          rw [fieldReads_iff, show messageKind (type :: rest) = some kind from hkind,
            Option.some_inj]

/-- The task of a handshake reads inside the message exactly if the name of a handshake that
is accepted has an end. -/
theorem taskReads_iff {data : List UInt8} {v : Endpoint} :
    (∀ k ∈ taskReads data v, k < min data.length Handshake.size) ↔
      ∀ hs ∈ handshakeIn data,
        v.expectedChunks = 0 → hs.pin = v.expectedPin → 0 ∈ hs.fileName := by
  rw [taskReads]
  cases hcarried : handshakeIn data with
  | none => exact iff_of_true (by rintro _ ⟨⟩) (by rintro _ ⟨⟩)
  | some hs =>
      rw [handshakeIn, Option.ite_none_right_eq_some, Option.some_inj] at hcarried
      obtain ⟨⟨-, hwhole⟩, rfl⟩ := hcarried
      have hfield : (Handshake.decode data).fileName.length = fileNameSize :=
        Buffer.length_block_of_le hwhole
      rw [min_eq_right hwhole]
      dsimp only
      simp only [Option.mem_def, Option.some_inj, forall_eq']
      by_cases hlooked : v.expectedChunks = 0 ∧ (Handshake.decode data).pin = v.expectedPin
      · rw [if_pos hlooked, nameReads_iff hfield]
        exact ⟨fun h _ _ => h, fun h => h hlooked.1 hlooked.2⟩
      · rw [if_neg hlooked]
        exact iff_of_true (by rintro _ ⟨⟩) fun hfresh hright => (hlooked ⟨hfresh, hright⟩).elim

/-- A message that is shorter than it announces is ignored, but for a first acknowledgement
without its bits. -/
theorem handleRecv_of_short {data : List UInt8} {w : Endpoint}
    (short : data.length < announcedSize data)
    (carries : w.handshakeAcked = false → messageKind data = some .handshakeAck →
      CarriesBits data) :
    handleRecv data w = w := by
  cases data with
  | nil => rfl
  | cons type rest =>
      rw [announcedSize, messageKind, List.head?_cons, Option.bind_some] at short
      rw [handleRecv]
      cases hkind : MessageType.ofByte type with
      | none => rfl
      | some kind =>
          rw [hkind] at short
          cases kind with
          | handshake => exact if_neg short.not_ge
          | handshakeReject => exact absurd short (by simp)
          | chunkData =>
              dsimp only at short ⊢
              by_cases hheader : (type :: rest).length < ChunkWireHeader.size
              · rw [if_neg hheader.not_ge]
              · rw [if_neg hheader] at short
                rw [if_pos (not_lt.mp hheader), if_pos short]
          | handshakeAck =>
              dsimp only at short ⊢
              rw [processHandshakeACk]
              split
              · rfl
              · rename_i hfirst
                have hbytes := carries (Bool.eq_false_iff.mpr hfirst) hkind
                split
                · rfl
                · rename_i hwhole
                  rw [if_neg hwhole] at short
                  have henough := hbytes (not_lt.mp hwhole)
                  omega

/-! ## What is read beyond the end is a fault -/

/-- Only an acknowledgement is read beyond its end. -/
theorem fault_handleRecv_of_other {data : List UInt8}
    (other : messageKind data ≠ some .handshakeAck) (w : Endpoint) :
    (handleRecv data w).fault = w.fault := by
  cases data with
  | nil => rfl
  | cons type rest =>
      rw [handleRecv]
      split
      · split <;> rfl
      · rename_i hkind
        exact (other hkind).elim
      · rfl
      · split
        · dsimp only
          split <;> rfl
        · rfl
      · rfl

/-- `handleRecv` is defined exactly where it reads inside the message. -/
theorem fault_handleRecv_iff {data : List UInt8} {w : Endpoint} (live : w.fault ≠ .crash) :
    (handleRecv data w).fault ≠ .crash ↔ ∀ k ∈ reads data w, k < data.length := by
  rw [reads_iff]
  by_cases hkind : messageKind data = some .handshakeAck
  · rw [handleRecv_of_acknowledgement hkind, processHandshakeACk]
    constructor
    · intro hlive hunacked _ hwhole
      rw [if_neg (by simp [hunacked]), if_neg hwhole.not_gt] at hlive
      apply (bitReads_iff hwhole).mp _ hwhole
      dsimp only at hlive
      cases hbits : BitField.readBits (data.drop HandshakeAck.size)
          (List.range (HandshakeAck.decode data).totalChunks.toNat) with
      | none =>
          rw [hbits] at hlive
          exact (hlive rfl).elim
      | some bits =>
          intro k hk
          obtain ⟨i, hi, rfl⟩ := List.mem_map.mp hk
          have hlt := BitField.inside_of_readBits hbits i hi
          rw [List.length_drop] at hlt
          omega
    · intro hcarries
      split
      · exact live
      · rename_i hfirst
        split
        · exact live
        · rename_i hlong
          obtain ⟨bits, hbits⟩ := ackBits_of_carriesBits (not_lt.mp hlong)
            (hcarries (Bool.eq_false_iff.mpr hfirst) hkind)
          dsimp only
          rw [show BitField.readBits _ _ = some bits from hbits]
          exact live
  · rw [fault_handleRecv_of_other hkind]
    exact iff_of_true live fun _ hack => (hkind hack).elim

/-- The task of an accepted handshake is defined exactly where it reads inside its struct. -/
theorem fault_prepare_iff {hs : Handshake} (field : hs.fileName.length = fileNameSize)
    {ok : Bool} {w v : Endpoint} {next : HandshakePc} (live : w.fault ≠ .crash)
    (taken : processHandshake P hs .prepare ok w = some (next, v)) :
    v.fault ≠ .crash ↔ ∀ k ∈ nameReads hs, k < Handshake.size := by
  rw [nameReads_iff field]
  rw [processHandshake, Handshake.fileNameText] at taken
  by_cases hends : 0 ∈ hs.fileName
  · rw [if_pos hends] at taken
    cases taken
    exact iff_of_true live hends
  · rw [if_neg hends] at taken
    cases taken
    exact iff_of_false (fun hlive => hlive rfl) hends

/-! ## Both readings -/

/-- Messages are decoded inside the message exactly if they are decodable. -/
theorem decodesInside_iff (data : List UInt8) (w v : Endpoint) :
    DecodesInside data w v ↔ Decodable data w v := by
  constructor
  · intro hinside
    exact ⟨reads_iff.mp hinside.handler, taskReads_iff.mp hinside.task⟩
  · rintro ⟨hcarries, hended⟩
    exact ⟨reads_iff.mpr hcarries, taskReads_iff.mpr hended,
      fun hshort => handleRecv_of_short hshort hcarries⟩

/-- An acknowledgement that announces one chunk and has no bits, and a handshake whose name
fills its field, are read beyond their ends. -/
theorem not_decodesInside_of_endless :
    ¬ DecodesInside [2, 1, 0, 0, 0] (KnownAnswers.sender 65) KnownAnswers.receiver ∧
      ¬ DecodesInside (Handshake.encode ⟨123456, 1, announcedChunkSize, 1, List.replicate 256 97⟩)
        KnownAnswers.receiver KnownAnswers.receiver := by
  constructor
  · intro hinside
    have hbits := reads_iff.mp hinside.handler rfl rfl
    revert hbits
    decide
  · intro hinside
    have hzero := taskReads_iff.mp hinside.task _
      (handshakeIn_encode List.length_replicate) rfl rfl
    have heq := List.eq_of_mem_replicate hzero
    revert heq
    decide

end Endpoint

end Sxaint.Net
