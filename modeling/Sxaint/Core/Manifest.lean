/-
# The transfer manifest

What the receiver knows about the file it receives, with one bit for every chunk
it has stored, and the packing of these bits into bytes. The packed vector is
sized in 32-bit arithmetic and indexed by the loop, so an index may lie outside
it; packing is partial and has no result in that case.
-/

import Sxaint.Bytes.BitField

namespace Sxaint.Core

/-- The receiver's record of a transfer. -/
structure TransferManifest where
  fileHash : List UInt8 := []
  fileSize : UInt64 := 0
  chunkSize : UInt32 := 0
  totalChunks : UInt32 := 0
  completedChunks : List Bool := []
  deriving DecidableEq, Repr

namespace TransferManifest

/-- The size of the packed vector. The sum wraps at 32 bits. -/
def packedSize (totalChunks : UInt32) : ℕ :=
  ((totalChunks + 7) / 8).toNat

/-- The chunk bits as bytes; `none` if the loop indexes `completedChunks` or the
packed vector beyond its end. -/
def packBitfield (manifest : TransferManifest) : Option (List UInt8) :=
  BitField.writeBits (fun i => manifest.completedChunks[i]?)
    (List.range manifest.totalChunks.toNat)
    (List.replicate (packedSize manifest.totalChunks) 0)

/-- Every chunk is stored, and there is at least one. -/
def isComplete (manifest : TransferManifest) : Bool :=
  if manifest.completedChunks.isEmpty then false
  else manifest.completedChunks.all id

/-- Completeness read off the bits one by one. -/
theorem isComplete_iff {manifest : TransferManifest} :
    manifest.isComplete = true ↔
      manifest.completedChunks ≠ [] ∧
        ∀ i < manifest.completedChunks.length, manifest.completedChunks[i]? = some true := by
  rw [isComplete]
  by_cases hempty : manifest.completedChunks = []
  · simp [hempty]
  · rw [if_neg (by simpa using hempty), List.all_eq_true]
    constructor
    · intro hall
      refine ⟨hempty, fun i hi => ?_⟩
      rw [List.getElem?_eq_getElem hi]
      exact congrArg some (hall _ (List.getElem_mem hi))
    · rintro ⟨-, hall⟩ bit hbit
      obtain ⟨i, hi, rfl⟩ := List.getElem_of_mem hbit
      exact Option.some.inj ((List.getElem?_eq_getElem hi).symm.trans (hall i hi))

/-- As many set bits as bits, and at least one, make a manifest complete. -/
theorem isComplete_of_countP {manifest : TransferManifest}
    (nonempty : manifest.completedChunks ≠ [])
    (full : manifest.completedChunks.length ≤ manifest.completedChunks.countP id) :
    manifest.isComplete = true := by
  have hall := List.countP_eq_length.mp (le_antisymm List.countP_le_length full)
  rw [isComplete, if_neg (by simpa using nonempty), List.all_eq_true]
  exact hall

/-- Setting a bit keeps a manifest complete. -/
theorem isComplete_set {manifest : TransferManifest} (complete : manifest.isComplete = true)
    (i : ℕ) :
    TransferManifest.isComplete
      { manifest with completedChunks := manifest.completedChunks.set i true } = true := by
  rw [isComplete_iff] at complete ⊢
  refine ⟨by simpa using complete.1, fun j hj => ?_⟩
  rw [List.length_set] at hj
  rw [List.getElem?_set]
  split
  · rename_i hsame
    subst hsame
    rw [if_pos hj]
  · exact complete.2 j hj

/-- Up to eight below the top of the range the size does not wrap. -/
theorem packedSize_of_le {totalChunks : UInt32} (bound : totalChunks.toNat ≤ 2 ^ 32 - 8) :
    packedSize totalChunks = (totalChunks.toNat + 7) / 8 := by
  have hsum : (totalChunks + 7).toNat = totalChunks.toNat + 7 := by
    rw [UInt32.toNat_add]
    simp
    omega
  rw [packedSize, UInt32.toNat_div, hsum]
  rfl

/-- In the seven counts above that the sum wraps and the vector is empty. -/
theorem packedSize_of_gt {totalChunks : UInt32} (large : 2 ^ 32 - 8 < totalChunks.toNat) :
    packedSize totalChunks = 0 := by
  have hlt := totalChunks.toNat_lt
  have hsum : (totalChunks + 7).toNat = totalChunks.toNat + 7 - 2 ^ 32 := by
    rw [UInt32.toNat_add]
    simp
    omega
  rw [packedSize, UInt32.toNat_div, hsum]
  simp
  omega

/-- Packing never changes the size the vector was allocated with. -/
theorem length_packBitfield {manifest : TransferManifest} {packed : List UInt8}
    (written : manifest.packBitfield = some packed) :
    packed.length = packedSize manifest.totalChunks := by
  rw [BitField.length_of_writeBits written, List.length_replicate]

/-- Packing needs a completion bit for every chunk. -/
theorem totalChunks_le_of_packBitfield {manifest : TransferManifest} {packed : List UInt8}
    (written : manifest.packBitfield = some packed) :
    manifest.totalChunks.toNat ≤ manifest.completedChunks.length := by
  by_contra hshort
  have hread := BitField.source_of_writeBits written manifest.completedChunks.length
    (List.mem_range.mpr (by omega))
  simp at hread

/-- With one bit for each chunk and a count that does not wrap, packing succeeds. -/
theorem packBitfield_isSome {manifest : TransferManifest}
    (shape : manifest.completedChunks.length = manifest.totalChunks.toNat)
    (bound : manifest.totalChunks.toNat ≤ 2 ^ 32 - 8) :
    manifest.packBitfield.isSome := by
  refine BitField.writeBits_isSome (fun i hi => ?_) fun i hi _ => ?_
  · simpa [shape] using hi
  · rw [List.length_replicate, packedSize_of_le bound]
    have := List.mem_range.mp hi
    omega

/-- A manifest with no stored chunk packs whatever its count is: no bit is set,
so the packed vector is never indexed. -/
theorem packBitfield_isSome_of_fresh {manifest : TransferManifest}
    (fresh : manifest.completedChunks = List.replicate manifest.totalChunks.toNat false) :
    manifest.packBitfield.isSome := by
  refine BitField.writeBits_isSome (fun i hi => ?_) fun i hi htrue => ?_
  · simpa [fresh] using hi
  · have := List.mem_range.mp hi
    simp [fresh, this] at htrue

/-- Reading the packed bits back gives the completion bits. -/
theorem readBits_packBitfield {manifest : TransferManifest} {packed : List UInt8}
    (shape : manifest.completedChunks.length = manifest.totalChunks.toNat)
    (bound : manifest.totalChunks.toNat ≤ 2 ^ 32 - 8)
    (written : manifest.packBitfield = some packed) :
    BitField.readBits packed (List.range manifest.totalChunks.toNat) =
      some manifest.completedChunks := by
  rw [BitField.readBits_eq_some]
  · congr 1
    apply List.ext_getElem
    · simp [shape]
    · intro i hleft hright
      have hi : i < manifest.totalChunks.toNat := by simpa using hleft
      rw [List.getElem_map, List.getElem_range, BitField.testBit_of_writeBits written]
      simp [hi, List.getElem?_eq_getElem hright]
  · intro i hi
    have := List.mem_range.mp hi
    rw [length_packBitfield written, packedSize_of_le bound]
    omega

end TransferManifest

end Sxaint.Core
