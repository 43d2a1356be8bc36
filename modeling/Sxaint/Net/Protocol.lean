/-
# Wire messages

The packed structs that the two parties exchange, as byte layouts. Decoding reads
fixed offsets, as the copy into the struct does; it is only applied to messages
at least as long as the struct. Decoding what was encoded gives the fields back,
whatever bytes follow.
-/

import Sxaint.Bytes.LittleEndian
import Sxaint.Bytes.Block

namespace Sxaint.Net

/-- The kinds of messages. -/
inductive MessageType
  | handshake
  | handshakeAck
  | handshakeReject
  | chunkData
  deriving DecidableEq, Repr

namespace MessageType

def toByte : MessageType → UInt8
  | handshake => 0x01
  | handshakeAck => 0x02
  | handshakeReject => 0x03
  | chunkData => 0x04

/-- The kind a first byte announces, if it announces one. -/
def ofByte (byte : UInt8) : Option MessageType :=
  if byte = 0x01 then some handshake
  else if byte = 0x02 then some handshakeAck
  else if byte = 0x03 then some handshakeReject
  else if byte = 0x04 then some chunkData
  else none

@[simp]
theorem ofByte_toByte (type : MessageType) : ofByte type.toByte = some type := by
  cases type <;> rfl

theorem eq_toByte_of_ofByte {byte : UInt8} {type : MessageType}
    (announced : ofByte byte = some type) :
    byte = type.toByte := by
  rw [ofByte] at announced
  split_ifs at announced with h₁ h₂ h₃ h₄
  all_goals
    obtain rfl := Option.some.inj announced
    assumption

end MessageType

/-- A four-byte unsigned field at an offset. -/
def readU32 (data : List UInt8) (offset : ℕ) : UInt32 :=
  UInt32.ofNat (LittleEndian.decode (Buffer.block data offset 4))

/-- An eight-byte unsigned field at an offset. -/
def readU64 (data : List UInt8) (offset : ℕ) : UInt64 :=
  UInt64.ofNat (LittleEndian.decode (Buffer.block data offset 8))

/-- The size of the name field of a handshake. -/
def fileNameSize : ℕ := 256

/-- The `handshake` struct without its type byte. -/
structure Handshake where
  pin : UInt32
  fileSize : UInt64
  chunkSize : UInt32
  totalChunks : UInt32
  fileName : List UInt8
  deriving DecidableEq, Repr

namespace Handshake

/-- `sizeof(handshake)`. -/
def size : ℕ := 277

def encode (hs : Handshake) : List UInt8 :=
  MessageType.handshake.toByte ::
    (LittleEndian.encode 4 hs.pin.toNat ++ LittleEndian.encode 8 hs.fileSize.toNat ++
      LittleEndian.encode 4 hs.chunkSize.toNat ++
      LittleEndian.encode 4 hs.totalChunks.toNat ++ hs.fileName)

def decode (data : List UInt8) : Handshake where
  pin := readU32 data 1
  fileSize := readU64 data 5
  chunkSize := readU32 data 13
  totalChunks := readU32 data 17
  fileName := Buffer.block data 21 fileNameSize

/-- The name as a C string: the bytes before the first zero byte. A field with no
zero byte is read beyond its end, which has no defined result. -/
def fileNameText (hs : Handshake) : Option (List UInt8) :=
  if 0 ∈ hs.fileName then some (hs.fileName.takeWhile (· != 0)) else none

/-- `strncpy` of a name into a zeroed field, leaving at least the last byte zero. -/
def nameField (name : List UInt8) : List UInt8 :=
  let kept := (name.takeWhile (· != 0)).take (fileNameSize - 1)
  kept ++ List.replicate (fileNameSize - kept.length) 0

@[simp]
theorem length_nameField (name : List UInt8) : (nameField name).length = fileNameSize := by
  simp only [nameField, fileNameSize, List.length_append, List.length_take,
    List.length_replicate]
  omega

/-- A copied name always ends inside its field. -/
theorem zero_mem_nameField (name : List UInt8) : 0 ∈ nameField name := by
  simp only [nameField, fileNameSize, List.mem_append, List.mem_replicate, List.length_take]
  exact Or.inr ⟨by omega, trivial⟩

@[simp]
theorem length_encode {hs : Handshake} (hname : hs.fileName.length = fileNameSize) :
    hs.encode.length = size := by
  simp [encode, hname, fileNameSize, size]

theorem decode_encode {hs : Handshake} (hname : hs.fileName.length = fileNameSize)
    (rest : List UInt8) : decode (hs.encode ++ rest) = hs := by
  simp only [decode, encode, readU32, readU64, List.cons_append, List.append_assoc,
    Buffer.block_cons_succ]
  simp [Buffer.block_append_of_le, Buffer.block_append_front, hname]

end Handshake

/-- The `handshakeAck` struct without its type byte; a bit field follows it. -/
structure HandshakeAck where
  totalChunks : UInt32
  deriving DecidableEq, Repr

namespace HandshakeAck

/-- `sizeof(handshakeAck)`. -/
def size : ℕ := 5

def encode (ack : HandshakeAck) : List UInt8 :=
  MessageType.handshakeAck.toByte :: LittleEndian.encode 4 ack.totalChunks.toNat

def decode (data : List UInt8) : HandshakeAck where
  totalChunks := readU32 data 1

@[simp]
theorem length_encode (ack : HandshakeAck) : ack.encode.length = size := by
  simp [encode, size]

@[simp]
theorem decode_encode (ack : HandshakeAck) (rest : List UInt8) :
    decode (ack.encode ++ rest) = ack := by
  simp only [decode, encode, readU32, List.cons_append, Buffer.block_cons_succ]
  simp [Buffer.block_append_front]

end HandshakeAck

/-- The reject message is its type byte alone. -/
def handshakeRejectMessage : List UInt8 :=
  [MessageType.handshakeReject.toByte]

/-- The `chunkWireHeader` struct without its type byte; the payload follows it. -/
structure ChunkWireHeader where
  chunkId : UInt32
  compressedSize : UInt32
  originalSize : UInt32
  crc32 : UInt32
  compressStra : UInt8
  deriving DecidableEq, Repr

namespace ChunkWireHeader

/-- `sizeof(chunkWireHeader)`. -/
def size : ℕ := 18

def encode (header : ChunkWireHeader) : List UInt8 :=
  MessageType.chunkData.toByte ::
    (LittleEndian.encode 4 header.chunkId.toNat ++
      LittleEndian.encode 4 header.compressedSize.toNat ++
      LittleEndian.encode 4 header.originalSize.toNat ++
      LittleEndian.encode 4 header.crc32.toNat ++ [header.compressStra])

def decode (data : List UInt8) : ChunkWireHeader where
  chunkId := readU32 data 1
  compressedSize := readU32 data 5
  originalSize := readU32 data 9
  crc32 := readU32 data 13
  compressStra := data.getD 17 0

@[simp]
theorem length_encode (header : ChunkWireHeader) : header.encode.length = size := by
  simp [encode, size]

@[simp]
theorem decode_encode (header : ChunkWireHeader) (rest : List UInt8) :
    decode (header.encode ++ rest) = header := by
  have hstra : (header.encode ++ rest).getD 17 0 = header.compressStra := by
    simp [encode, List.getD_eq_getElem?_getD, List.getElem?_append]
  simp only [decode, hstra]
  simp only [encode, readU32, List.cons_append, List.append_assoc, Buffer.block_cons_succ]
  simp [Buffer.block_append_of_le, Buffer.block_append_front]

end ChunkWireHeader

end Sxaint.Net
