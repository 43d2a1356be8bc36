/-
# The segments of a datagram

A datagram is segments one after another: a header of 24 bytes, with the number of data bytes in
its last field, and the data. `ikcp_input` takes segments off the front until fewer bytes than a
header are left, and gives up at the first segment that is not of its conversation, does not fit or
has no known command. What it reads without complaint is exactly what was written, up to such a
rest.
-/

import Sxaint.Bytes.Framing
import Sxaint.Net.KcpReceive

namespace Sxaint.Ikcp

open Sxaint.Net (readU32 toInt)
open Sxaint.Net.Kcp (overhead)

/-- `IKCP_CMD_PUSH` -/
def cmdPush : UInt8 := 81

/-- `IKCP_CMD_ACK` -/
def cmdAck : UInt8 := 82

/-- `IKCP_CMD_WASK` -/
def cmdWask : UInt8 := 83

/-- `IKCP_CMD_WINS` -/
def cmdWins : UInt8 := 84

/-- A segment as it is in a datagram. -/
structure Packet where
  conv : UInt32
  cmd : UInt8
  frg : UInt8
  wnd : UInt16
  ts : UInt32
  sn : UInt32
  una : UInt32
  data : List UInt8
  deriving DecidableEq, Repr

namespace Packet

/-- The bytes of a segment: what `ikcp_encode_seg` writes, and the data. -/
def encode (p : Packet) : List UInt8 :=
  LittleEndian.encode 4 p.conv.toNat ++ [p.cmd, p.frg] ++ LittleEndian.encode 2 p.wnd.toNat ++
    LittleEndian.encode 4 p.ts.toNat ++ LittleEndian.encode 4 p.sn.toNat ++
    LittleEndian.encode 4 p.una.toNat ++ LittleEndian.encode 4 p.data.length ++ p.data

/-- A segment that `ikcp_input` takes. -/
structure Valid (conv : UInt32) (p : Packet) : Prop where
  conv : p.conv = conv
  cmd : p.cmd = cmdPush ∨ p.cmd = cmdAck ∨ p.cmd = cmdWask ∨ p.cmd = cmdWins
  size : p.data.length < 2 ^ 31

end Packet

/-- What the loop of `ikcp_input` finds at the front of what is left of a datagram. -/
inductive Front
  | /-- Fewer bytes than a header. -/
    rest
  | /-- `ikcp_input` returns a negative value. -/
    refused (code : ℤ)
  | segment (packet : Packet) (rest : List UInt8)
  deriving DecidableEq, Repr

/-- The head of the loop of `ikcp_input`. -/
def front (conv : UInt32) (data : List UInt8) : Front :=
  if data.length < overhead then .rest
  else if readU32 data 0 ≠ conv then .refused (-1)
  else
    let len := readU32 data 20
    let left := data.drop overhead
    let cmd := data.getD 4 0
    if left.length < len.toNat ∨ toInt len.toNat < 0 then .refused (-2)
    else if cmd ≠ cmdPush ∧ cmd ≠ cmdAck ∧ cmd ≠ cmdWask ∧ cmd ≠ cmdWins then .refused (-3)
    else
      .segment
        { conv := readU32 data 0
          cmd := cmd
          frg := data.getD 5 0
          wnd := UInt16.ofNat (LittleEndian.decode (Buffer.block data 6 2))
          ts := readU32 data 8
          sn := readU32 data 12
          una := readU32 data 16
          data := left.take len.toNat }
        (left.drop len.toNat)

/-- The segments that the loop goes over, in at most as many rounds as there are bytes, and the
value that it ends with. -/
def segmentsLoop (conv : UInt32) : ℕ → List UInt8 → List Packet × ℤ
  | 0, _ => ([], 0)
  | rounds + 1, data =>
    match front conv data with
    | .rest => ([], 0)
    | .refused code => ([], code)
    | .segment packet left =>
      let (packets, code) := segmentsLoop conv rounds left
      (packet :: packets, code)

/-- The segments that `ikcp_input` finds in a datagram, and whether it reaches its end. -/
def segments (conv : UInt32) (data : List UInt8) : List Packet × ℤ :=
  segmentsLoop conv data.length data

/-- What is left of a datagram when the loop ends with a value. -/
def Ends (conv : UInt32) (tail : List UInt8) (code : ℤ) : Prop :=
  front conv tail = .rest ∧ code = 0 ∨ front conv tail = .refused code

/-! ## Reading what was written -/

theorem toInt_neg_iff {len : UInt32} : toInt len.toNat < 0 ↔ 2 ^ 31 ≤ len.toNat := by
  have hlt := len.toNat_lt
  have hsame : toInt len.toNat = Int.bmod len.toNat (2 ^ 32) := rfl
  rw [hsame, Int.bmod_def]
  omega

theorem Packet.length_encode (p : Packet) : p.encode.length = overhead + p.data.length := by
  simp only [encode, List.length_append, LittleEndian.length_encode, List.length_cons,
    List.length_nil, overhead]

/-- The fields of a header with something behind it. -/
theorem Packet.header_encode (p : Packet) (rest : List UInt8) :
    readU32 (p.encode ++ rest) 0 = p.conv ∧ (p.encode ++ rest).getD 4 0 = p.cmd ∧
      (p.encode ++ rest).getD 5 0 = p.frg ∧
      UInt16.ofNat (LittleEndian.decode (Buffer.block (p.encode ++ rest) 6 2)) = p.wnd ∧
      readU32 (p.encode ++ rest) 8 = p.ts ∧ readU32 (p.encode ++ rest) 12 = p.sn ∧
      readU32 (p.encode ++ rest) 16 = p.una ∧
      readU32 (p.encode ++ rest) 20 = UInt32.ofNat p.data.length ∧
      (p.encode ++ rest).drop overhead = p.data ++ rest := by
  have hwnd : UInt16.ofNat (LittleEndian.decode (LittleEndian.encode 2 p.wnd.toNat)) = p.wnd := by
    rw [LittleEndian.decode_encode_of_lt (by have := p.wnd.toNat_lt; omega), UInt16.ofNat_toNat]
  have hlen : UInt32.ofNat (LittleEndian.decode (LittleEndian.encode 4 p.data.length)) =
      UInt32.ofNat p.data.length := by
    rw [LittleEndian.decode_encode]
    apply UInt32.toNat_inj.mp
    simp only [UInt32.toNat_ofNat']
    omega
  refine ⟨?_, ?_, ?_, ?_, ?_, ?_, ?_, ?_, ?_⟩
  · simp [encode, readU32, Buffer.block_append_front]
  · simp [encode]
  · simp [encode, List.getElem?_append]
  · simp [encode, Buffer.block_append_of_le, Buffer.block_append_front, hwnd]
  · simp [encode, readU32, Buffer.block_append_of_le, Buffer.block_append_front]
  · simp [encode, readU32, Buffer.block_append_of_le, Buffer.block_append_front]
  · simp [encode, readU32, Buffer.block_append_of_le, Buffer.block_append_front]
  · simp [encode, readU32, Buffer.block_append_of_le, Buffer.block_append_front, hlen]
  · rw [encode, List.append_assoc]
    exact List.drop_left' (by simp [overhead])

/-- A segment at the front is taken as it was written. -/
theorem front_encode {conv : UInt32} {p : Packet} (valid : p.Valid conv) (rest : List UInt8) :
    front conv (p.encode ++ rest) = .segment p rest := by
  obtain ⟨hconv, hcmd, hfrg, hwnd, hts, hsn, huna, hlen, hleft⟩ := p.header_encode rest
  have hsize : (UInt32.ofNat p.data.length).toNat = p.data.length := by
    rw [UInt32.toNat_ofNat']
    exact Nat.mod_eq_of_lt (by have := valid.size; omega)
  rw [front, if_neg, if_neg]
  · dsimp only
    rw [hlen, hcmd, hleft, hsize, if_neg, if_neg, List.take_left, List.drop_left, hconv, hfrg,
      hwnd, hts, hsn, huna]
    · rintro ⟨hpush, hack, hwask, hwins⟩
      rcases valid.cmd with h | h | h | h
      · exact hpush h
      · exact hack h
      · exact hwask h
      · exact hwins h
    · rw [not_or, List.length_append]
      refine ⟨by omega, ?_⟩
      rw [← hsize, toInt_neg_iff, hsize]
      exact Nat.not_le_of_lt valid.size
  · rw [hconv, not_not]
    exact valid.conv
  · rw [List.length_append, p.length_encode]
    omega

/-- A block and what follows it. -/
theorem block_append_drop (data : List UInt8) (offset size : ℕ) :
    Buffer.block data offset size ++ data.drop (offset + size) = data.drop offset := by
  rw [Buffer.block, ← List.drop_drop, List.take_append_drop]

/-- A field is written as it was read. -/
theorem encode_readU32 {data : List UInt8} {offset : ℕ} (inside : offset + 4 ≤ data.length) :
    LittleEndian.encode 4 (readU32 data offset).toNat = Buffer.block data offset 4 := by
  have hlength := Buffer.length_block_of_le inside
  have hlt := LittleEndian.decode_lt (Buffer.block data offset 4)
  have hround := LittleEndian.encode_decode (Buffer.block data offset 4)
  rw [hlength] at hlt hround
  rw [readU32, UInt32.toNat_ofNat', Nat.mod_eq_of_lt (by omega), hround]

theorem encode_readU16 {data : List UInt8} {offset : ℕ} (inside : offset + 2 ≤ data.length) :
    LittleEndian.encode 2
        (UInt16.ofNat (LittleEndian.decode (Buffer.block data offset 2))).toNat =
      Buffer.block data offset 2 := by
  have hlength := Buffer.length_block_of_le inside
  have hlt := LittleEndian.decode_lt (Buffer.block data offset 2)
  have hround := LittleEndian.encode_decode (Buffer.block data offset 2)
  rw [hlength] at hlt hround
  rw [UInt16.toNat_ofNat', Nat.mod_eq_of_lt (by omega), hround]

/-- What is taken from the front is what was written there. -/
theorem encode_of_front {conv : UInt32} {data left : List UInt8} {p : Packet}
    (taken : front conv data = .segment p left) : p.Valid conv ∧ data = p.encode ++ left := by
  rw [front] at taken
  split at taken
  · cases taken
  rename_i hlong
  split at taken
  · cases taken
  rename_i hconv
  dsimp only at taken
  split at taken
  · cases taken
  rename_i hfits
  split at taken
  · cases taken
  rename_i hcmd
  rw [not_or, Nat.not_lt, toInt_neg_iff, Nat.not_le] at hfits
  obtain ⟨rfl, rfl⟩ := Front.segment.inj taken
  have hlength : ((data.drop overhead).take (readU32 data 20).toNat).length =
      (readU32 data 20).toNat := List.length_take_of_le hfits.1
  refine ⟨⟨not_not.mp hconv, ?_, ?_⟩, ?_⟩
  · by_contra hnone
    simp only [not_or] at hnone
    exact hcmd ⟨hnone.1, hnone.2.1, hnone.2.2.1, hnone.2.2.2⟩
  · exact hlength.trans_lt hfits.2
  · have hinside : overhead ≤ data.length := Nat.le_of_not_lt hlong
    rw [overhead] at hinside
    have hbytes : [data.getD 4 0, data.getD 5 0] = Buffer.block data 4 2 := by
      rw [Buffer.block, List.drop_eq_getElem_cons (by omega), List.drop_eq_getElem_cons (by omega),
        List.take_succ_cons, List.take_succ_cons, List.take_zero,
        List.getElem_eq_getD 0, List.getElem_eq_getD 0]
    rw [Packet.encode]
    dsimp only
    rw [hlength, encode_readU32 (by omega), encode_readU16 (by omega), encode_readU32 (by omega),
      encode_readU32 (by omega), encode_readU32 (by omega), encode_readU32 (by omega), hbytes]
    simp only [List.append_assoc, List.take_append_drop, overhead]
    rw [block_append_drop, block_append_drop, block_append_drop, block_append_drop,
      block_append_drop, block_append_drop, block_append_drop, List.drop_zero]

theorem Packet.encode_ne_nil (p : Packet) : p.encode ≠ [] := by
  intro hnil
  have hlength := p.length_encode
  rw [hnil, overhead, List.length_nil] at hlength
  omega

theorem segmentsLoop_eq_iff {conv : UInt32} {rounds : ℕ} {data : List UInt8}
    {packets : List Packet} {code : ℤ} (enough : data.length ≤ rounds) :
    segmentsLoop conv rounds data = (packets, code) ↔
      (∀ p ∈ packets, p.Valid conv) ∧
        ∃ tail, data = packets.flatMap Packet.encode ++ tail ∧ Ends conv tail code := by
  induction rounds generalizing data packets with
  | zero =>
      obtain rfl : data = [] := List.length_eq_zero_iff.mp (Nat.le_zero.mp enough)
      rw [segmentsLoop]
      constructor
      · intro hpair
        cases hpair
        exact ⟨nofun, [], rfl, .inl ⟨rfl, rfl⟩⟩
      · rintro ⟨-, tail, hdata, hends⟩
        obtain ⟨hpackets, rfl⟩ := List.append_eq_nil_iff.mp hdata.symm
        rcases hends with ⟨-, rfl⟩ | hrefused
        · cases packets with
          | nil => rfl
          | cons p rest => exact (p.encode_ne_nil (List.append_eq_nil_iff.mp hpackets).1).elim
        · cases hrefused
  | succ rounds ih =>
      rw [segmentsLoop]
      cases hfront : front conv data with
      | rest | refused refusal =>
          constructor
          · intro hpair
            cases hpair
            refine ⟨nofun, data, rfl, ?_⟩
            first
              | exact .inl ⟨hfront, rfl⟩
              | exact .inr hfront
          · rintro ⟨hvalid, tail, rfl, hends⟩
            cases packets with
            | nil =>
                rw [List.flatMap_nil, List.nil_append] at hfront
                rcases hends with ⟨hrest, rfl⟩ | hrefused
                · cases hfront.symm.trans hrest <;> rfl
                · cases hfront.symm.trans hrefused <;> rfl
            | cons p rest =>
                rw [List.flatMap_cons, List.append_assoc,
                  front_encode (hvalid p List.mem_cons_self)] at hfront
                cases hfront
      | segment p left =>
          obtain ⟨hvalid, rfl⟩ := encode_of_front hfront
          have hleft : left.length ≤ rounds := by
            rw [List.length_append, p.length_encode, overhead] at enough
            omega
          dsimp only
          constructor
          · intro hpair
            cases hpair
            obtain ⟨hrest, tail, htail, hends⟩ := (ih hleft).mp rfl
            refine ⟨List.forall_mem_cons.mpr ⟨hvalid, hrest⟩, tail, ?_, hends⟩
            rw [List.flatMap_cons, List.append_assoc, ← htail]
          · rintro ⟨hall, tail, hdata, hends⟩
            cases packets with
            | nil =>
                rw [List.flatMap_nil, List.nil_append] at hdata
                rw [← hdata] at hends
                rcases hends with ⟨hrest, -⟩ | hrefused
                · cases hfront.symm.trans hrest
                · cases hfront.symm.trans hrefused
            | cons first rest =>
                obtain ⟨hfirst, hrest⟩ := List.forall_mem_cons.mp hall
                rw [List.flatMap_cons, List.append_assoc] at hdata
                rw [hdata, front_encode hfirst] at hfront
                cases hfront
                rw [(ih hleft).mpr ⟨hrest, tail, rfl, hends⟩]

/-- `ikcp_input` finds some segments in a datagram, and ends in some way, exactly if the datagram is
those segments as they are written, behind which it ends in this way. -/
theorem segments_eq_iff (conv : UInt32) (data : List UInt8) (packets : List Packet) (code : ℤ) :
    segments conv data = (packets, code) ↔
      (∀ p ∈ packets, p.Valid conv) ∧
        ∃ tail, data = packets.flatMap Packet.encode ++ tail ∧ Ends conv tail code :=
  segmentsLoop_eq_iff (le_refl _)

end Sxaint.Ikcp
