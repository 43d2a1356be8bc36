/-
# Slicing a file into chunks

The sender cuts its mapped file into chunks of one size, the last one possibly
shorter, and computes each chunk's checksum.
-/

import Sxaint.Bytes.Block
import Sxaint.Core.Hasher

namespace Sxaint.Core

/-- One chunk of a file. Its span is the place it starts at in the sliced view
and the bytes it covers. -/
structure Chunk where
  id : UInt32
  totalChunks : UInt32
  payloadSize : UInt32
  crc32 : UInt32
  offset : ℕ
  data : List UInt8
  flags : UInt8 := 0
  deriving DecidableEq, Repr

namespace Chunker

/-- Two megabytes. -/
def kDefaultChunkSize : ℕ := 2 * 1024 * 1024

/-- The number of chunks, computed in `size_t` and cut to 32 bits. -/
def totalChunks (totalSize chunkSize : ℕ) : UInt32 :=
  UInt32.ofNat ((totalSize + chunkSize - 1) % 2 ^ 64 / chunkSize)

/-- The chunk with index `i` of a view. The product `i * chunkSize` does not wrap,
since it is below the size of the view for every index of the loop. -/
def chunkAt (fileView : List UInt8) (chunkSize : ℕ) (i : ℕ) : Chunk :=
  let totalSize := fileView.length
  let count := totalChunks totalSize chunkSize
  let offset := i * chunkSize
  let currentChunkSize := min chunkSize (totalSize - offset)
  let data := Buffer.block fileView offset currentChunkSize
  { id := UInt32.ofNat i
    totalChunks := count
    payloadSize := UInt32.ofNat currentChunkSize
    crc32 := Hasher.crc32 data
    offset := offset
    data := data
    flags := if UInt32.ofNat i = count - 1 then 0x02 else 0 }

/-- The chunks of a view, in order. -/
def slice (fileView : List UInt8) (chunkSize : ℕ) : List Chunk :=
  if fileView = [] then []
  else
    (List.range (totalChunks fileView.length chunkSize).toNat).map
      (chunkAt fileView chunkSize)

theorem length_slice_of_ne_nil {fileView : List UInt8} (nonempty : fileView ≠ [])
    (chunkSize : ℕ) :
    (slice fileView chunkSize).length = (totalChunks fileView.length chunkSize).toNat := by
  rw [slice, if_neg nonempty, List.length_map, List.length_range]

/-- Every chunk starts inside the view. -/
theorem offset_lt {totalSize chunkSize i : ℕ} (positive : 0 < chunkSize)
    (inside : i < (totalChunks totalSize chunkSize).toNat) : i * chunkSize < totalSize := by
  have hcut :
      (totalChunks totalSize chunkSize).toNat ≤ (totalSize + chunkSize - 1) / chunkSize := by
    rw [totalChunks, UInt32.toNat_ofNat']
    exact (Nat.mod_le _ _).trans (Nat.div_le_div_right (Nat.mod_le _ _))
  have hnext : (i + 1) * chunkSize ≤ totalSize + chunkSize - 1 :=
    (Nat.le_div_iff_mul_le positive).mp (inside.trans_le hcut)
  rw [Nat.succ_mul] at hnext
  omega

/-- The count is exact as long as it fits in 32 bits and the sum does not wrap. -/
theorem toNat_totalChunks_of_lt {totalSize chunkSize : ℕ}
    (countable : (totalSize + chunkSize - 1) / chunkSize < 2 ^ 32)
    (fits : totalSize + chunkSize < 2 ^ 64) :
    (totalChunks totalSize chunkSize).toNat = (totalSize + chunkSize - 1) / chunkSize := by
  have hsum : totalSize + chunkSize - 1 < 2 ^ 64 := by omega
  rw [totalChunks, Nat.mod_eq_of_lt hsum, UInt32.toNat_ofNat', Nat.mod_eq_of_lt countable]

/-- The count is exact as long as it fits in 32 bits. -/
theorem toNat_totalChunks {totalSize chunkSize : ℕ} (positive : 0 < chunkSize)
    (fits : (totalSize + chunkSize - 1) / chunkSize < 2 ^ 32) (small : chunkSize ≤ 2 ^ 31) :
    (totalChunks totalSize chunkSize).toNat = (totalSize + chunkSize - 1) / chunkSize := by
  apply toNat_totalChunks_of_lt fits
  have hlt := (Nat.div_lt_iff_lt_mul positive).mp fits
  have hle : 2 ^ 32 * chunkSize ≤ 2 ^ 32 * 2 ^ 31 := Nat.mul_le_mul_left _ small
  have hpow : 2 ^ 32 * 2 ^ 31 < 2 ^ 64 := by decide
  omega

/-- The size of the chunk with a given index. -/
def chunkLength (totalSize chunkSize i : ℕ) : ℕ :=
  min chunkSize (totalSize - i * chunkSize)

theorem chunkLength_pos {totalSize chunkSize i : ℕ} (positive : 0 < chunkSize)
    (inside : i < (totalChunks totalSize chunkSize).toNat) :
    0 < chunkLength totalSize chunkSize i := by
  have := offset_lt positive inside
  rw [chunkLength]
  omega

theorem chunkLength_le (totalSize chunkSize i : ℕ) :
    chunkLength totalSize chunkSize i ≤ chunkSize :=
  min_le_left _ _

/-- No chunk reaches beyond the view. -/
theorem chunkEnd_le {totalSize chunkSize i : ℕ} (positive : 0 < chunkSize)
    (inside : i < (totalChunks totalSize chunkSize).toNat) :
    i * chunkSize + chunkLength totalSize chunkSize i ≤ totalSize := by
  have := offset_lt positive inside
  rw [chunkLength]
  omega

@[simp]
theorem chunkAt_data (fileView : List UInt8) (chunkSize i : ℕ) :
    (chunkAt fileView chunkSize i).data =
      Buffer.block fileView (i * chunkSize) (chunkLength fileView.length chunkSize i) := rfl

theorem length_chunkAt_data {fileView : List UInt8} {chunkSize i : ℕ} (positive : 0 < chunkSize)
    (inside : i < (totalChunks fileView.length chunkSize).toNat) :
    (chunkAt fileView chunkSize i).data.length = chunkLength fileView.length chunkSize i := by
  rw [chunkAt_data, Buffer.length_block_of_le (chunkEnd_le positive inside)]

/-- Indices of chunks fit in 32 bits. -/
theorem toNat_chunkAt_id {fileView : List UInt8} {chunkSize i : ℕ}
    (inside : i < (totalChunks fileView.length chunkSize).toNat) :
    (chunkAt fileView chunkSize i).id.toNat = i := by
  show (UInt32.ofNat i).toNat = i
  rw [UInt32.toNat_ofNat']
  exact Nat.mod_eq_of_lt (inside.trans (UInt32.toNat_lt _))

theorem toNat_chunkAt_payloadSize {fileView : List UInt8} {chunkSize : ℕ} (i : ℕ)
    (small : chunkSize < 2 ^ 32) :
    (chunkAt fileView chunkSize i).payloadSize.toNat =
      chunkLength fileView.length chunkSize i := by
  show (UInt32.ofNat (chunkLength fileView.length chunkSize i)).toNat = _
  rw [UInt32.toNat_ofNat']
  exact Nat.mod_eq_of_lt ((chunkLength_le _ _ _).trans_lt small)

theorem mem_slice {fileView : List UInt8} (nonempty : fileView ≠ []) {chunkSize : ℕ}
    {chunk : Chunk} :
    chunk ∈ slice fileView chunkSize ↔
      ∃ i < (totalChunks fileView.length chunkSize).toNat,
        chunkAt fileView chunkSize i = chunk := by
  simp [slice, nonempty]

end Chunker

end Sxaint.Core
