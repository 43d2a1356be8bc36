/-
# The codec of the completion bits

`pack_bitfield` and `unpack_bitfield` against each other. Both loops run over the chunk count, while
the packed vector has a size that is computed from the count in 32 bits. Where the sum does not wrap
the two functions are inverse to each other, up to the unused bits of the last byte, and use no
index outside of the vector. In the seven counts above that the vector is empty.
-/

import Sxaint.Core.ManifestFile

namespace Sxaint.Core

namespace TransferManifest

/-! ## The code -/

/-- `unpack_bitfield`, on the manifest it fills. -/
def unpackInto (manifest : TransferManifest) (packed : List UInt8) (expectedChunks : UInt32) :
    Option TransferManifest :=
  (unpackBitfield packed expectedChunks).map fun bits =>
    { manifest with totalChunks := expectedChunks, completedChunks := bits }

/-- The indices into the packed vector that `pack_bitfield` uses, in order. -/
def packIndices (manifest : TransferManifest) : List ℕ :=
  BitField.bytesWritten (fun i => manifest.completedChunks[i]?)
    (List.range manifest.totalChunks.toNat)

/-- The indices into the packed vector that `unpack_bitfield` uses, in order. -/
def unpackIndices (expectedChunks : UInt32) : List ℕ :=
  BitField.bytesRead (List.range expectedChunks.toNat)

/-! ## Round trips -/

/-- What was packed is unpacked again, whatever the manifest it is unpacked into. -/
theorem unpackInto_packBitfield {manifest : TransferManifest} {packed : List UInt8}
    (shape : manifest.completedChunks.length = manifest.totalChunks.toNat)
    (bound : manifest.totalChunks.toNat ≤ 2 ^ 32 - 8)
    (written : manifest.packBitfield = some packed) (target : TransferManifest) :
    target.unpackInto packed manifest.totalChunks =
      some
        { target with
          totalChunks := manifest.totalChunks
          completedChunks := manifest.completedChunks } := by
  rw [unpackInto, unpackBitfield, readBits_packBitfield shape bound written, Option.map_some]

/-- A vector of the right size is unpacked into one bit for each chunk, and the bits are the ones it
has. -/
theorem unpackBitfield_of_length {packed : List UInt8} {totalChunks : UInt32}
    (size : packed.length = (totalChunks.toNat + 7) / 8) :
    unpackBitfield packed totalChunks =
      some ((List.range totalChunks.toNat).map (BitField.testBit packed)) := by
  apply BitField.readBits_eq_some
  intro i hi
  have := List.mem_range.mp hi
  omega

/-- What was unpacked is packed again, if the unused bits are zero. -/
theorem packBitfield_unpackInto {packed : List UInt8} {totalChunks : UInt32}
    (bound : totalChunks.toNat ≤ 2 ^ 32 - 8) (size : packed.length = (totalChunks.toNat + 7) / 8)
    (unused : BitField.ZeroFrom totalChunks.toNat packed) (target : TransferManifest) :
    (target.unpackInto packed totalChunks).bind packBitfield = some packed := by
  rw [unpackInto, unpackBitfield_of_length size, Option.map_some, Option.bind_some]
  generalize hbits : (List.range totalChunks.toNat).map (BitField.testBit packed) = bits
  have hlength : bits.length = totalChunks.toNat := by
    rw [← hbits, List.length_map, List.length_range]
  obtain ⟨result, hresult⟩ := Option.isSome_iff_exists.mp (@packBitfield_isSome
    { target with totalChunks := totalChunks, completedChunks := bits } hlength bound)
  rw [hresult, Option.some_inj]
  have hsame : result.length = packed.length := by
    rw [length_packBitfield hresult, packedSize_of_le bound, size]
  apply BitField.eq_of_testBit hsame
  intro i hi
  rw [BitField.testBit_of_writeBits hresult, BitField.testBit_replicate_zero, Bool.false_or]
  by_cases hinside : i < totalChunks.toNat
  · have hbit : bits[i]? = some (BitField.testBit packed i) := by
      rw [← hbits, List.getElem?_map, List.getElem?_range hinside, Option.map_some]
    rw [hbit]
    simp [hinside]
  · rw [unused i (Nat.le_of_not_lt hinside) (hsame ▸ hi)]
    simp [hinside]

/-- Up to eight below the top of the range the two functions are inverse to each other. -/
theorem bitfield_roundTrips {totalChunks : UInt32} (bound : totalChunks.toNat ≤ 2 ^ 32 - 8) :
    (∀ manifest : TransferManifest, manifest.totalChunks = totalChunks →
      manifest.completedChunks.length = totalChunks.toNat →
        ∃ packed, manifest.packBitfield = some packed ∧ ∀ target : TransferManifest,
          target.unpackInto packed totalChunks =
            some
              { target with
                totalChunks := manifest.totalChunks
                completedChunks := manifest.completedChunks }) ∧
      ∀ packed : List UInt8, packed.length = (totalChunks.toNat + 7) / 8 →
        BitField.ZeroFrom totalChunks.toNat packed → ∀ target : TransferManifest,
          ∃ unpacked, target.unpackInto packed totalChunks = some unpacked ∧
            unpacked.packBitfield = some packed := by
  constructor
  · rintro manifest rfl hshape
    obtain ⟨packed, hpacked⟩ := Option.isSome_iff_exists.mp (packBitfield_isSome hshape bound)
    exact ⟨packed, hpacked, unpackInto_packBitfield hshape bound hpacked⟩
  · intro packed hsize hunused target
    exact Option.bind_eq_some_iff.mp (packBitfield_unpackInto bound hsize hunused target)

/-- Nine chunks of which the first and the last are stored. -/
def nineChunks : TransferManifest where
  totalChunks := 9
  completedChunks := [true, false, false, false, false, false, false, false, true]

/-- They are packed into two bytes. -/
theorem bitfield_roundTrips_nineChunks :
    (∃ packed, nineChunks.packBitfield = some packed ∧
        unpackInto {} packed 9 = some nineChunks) ∧
      ∃ unpacked, unpackInto {} [1, 1] 9 = some unpacked ∧ unpacked.packBitfield = some [1, 1] := by
  obtain ⟨hunpack, hpack⟩ := @bitfield_roundTrips 9 (by decide)
  constructor
  · obtain ⟨packed, hpacked, hunpacked⟩ := hunpack nineChunks rfl rfl
    exact ⟨packed, hpacked, hunpacked {}⟩
  · exact hpack [1, 1] (by decide) (by decide) {}

/-- Beyond that a vector with a byte for every eight chunks is not given back. -/
theorem packBitfield_ne_of_gt {packed : List UInt8} {totalChunks : UInt32}
    (large : 2 ^ 32 - 8 < totalChunks.toNat) (size : packed.length = (totalChunks.toNat + 7) / 8)
    (target : TransferManifest) :
    (target.unpackInto packed totalChunks).bind packBitfield ≠ some packed := by
  rw [unpackInto, unpackBitfield_of_length size, Option.map_some, Option.bind_some]
  intro hpacked
  have hlength := length_packBitfield hpacked
  rw [packedSize_of_gt large] at hlength
  omega

/-! ## Indices -/

/-- Packing a manifest with its completion bits succeeds exactly if it uses no index outside. -/
theorem packBitfield_isSome_iff {manifest : TransferManifest}
    (shape : manifest.completedChunks.length = manifest.totalChunks.toNat) :
    manifest.packBitfield.isSome ↔
      ∀ index ∈ manifest.packIndices, index < packedSize manifest.totalChunks := by
  have htotal : ∀ i ∈ List.range manifest.totalChunks.toNat,
      (manifest.completedChunks[i]?).isSome := by
    intro i hi
    simpa [shape] using hi
  rw [packBitfield, BitField.writeBits_isSome_iff htotal, List.length_replicate]
  rfl

/-- Unpacking the vector that `load` allocates succeeds exactly if it uses no index outside. -/
theorem unpackBitfield_isSome_iff {packed : List UInt8} {totalChunks : UInt32}
    (size : packed.length = packedSize totalChunks) :
    (unpackBitfield packed totalChunks).isSome ↔
      ∀ index ∈ unpackIndices totalChunks, index < packedSize totalChunks := by
  rw [unpackBitfield, BitField.readBits_isSome_iff, size]
  rfl

/-- No index that packing the manifest or unpacking a vector for its count uses is outside of the
vector that is allocated for the count. -/
def IndexesInside (manifest : TransferManifest) : Prop :=
  (∀ index ∈ manifest.packIndices, index < packedSize manifest.totalChunks) ∧
    ∀ index ∈ unpackIndices manifest.totalChunks, index < packedSize manifest.totalChunks

theorem unpackIndices_inside_iff {totalChunks : UInt32} :
    (∀ index ∈ unpackIndices totalChunks, index < packedSize totalChunks) ↔
      totalChunks.toNat ≤ 2 ^ 32 - 8 := by
  simp only [unpackIndices, BitField.bytesRead, List.forall_mem_map, List.mem_range]
  constructor
  · intro hinside
    by_contra hlarge
    -- the first bit has an index, and the vector is empty
    have hfirst := hinside 0 (by omega)
    rw [packedSize_of_gt (Nat.lt_of_not_le hlarge)] at hfirst
    exact Nat.not_lt_zero _ hfirst
  · intro hbound i hi
    rw [packedSize_of_le hbound]
    omega

/-- Packing uses an index for a set bit only. -/
theorem packIndices_inside_iff {manifest : TransferManifest}
    (shape : manifest.completedChunks.length = manifest.totalChunks.toNat) :
    (∀ index ∈ manifest.packIndices, index < packedSize manifest.totalChunks) ↔
      manifest.totalChunks.toNat ≤ 2 ^ 32 - 8 ∨ true ∉ manifest.completedChunks := by
  simp only [packIndices, BitField.bytesWritten, List.forall_mem_map, List.mem_filter,
    List.mem_range, decide_eq_true_eq, and_imp]
  constructor
  · intro hinside
    by_contra hneither
    obtain ⟨hlarge, hset⟩ := not_or.mp hneither
    obtain ⟨i, hi, hbit⟩ := List.getElem_of_mem (not_not.mp hset)
    have hindex := hinside i (shape ▸ hi) (by rw [List.getElem?_eq_getElem hi, hbit])
    rw [packedSize_of_gt (Nat.lt_of_not_le hlarge)] at hindex
    exact Nat.not_lt_zero _ hindex
  · rintro (hbound | hclear) i hi hbit
    · rw [packedSize_of_le hbound]
      omega
    · exact (hclear (List.mem_of_getElem? hbit)).elim

/-- The indices of both functions are inside exactly for the counts up to eight below the top of
the range. -/
theorem indexesInside_iff {manifest : TransferManifest}
    (shape : manifest.completedChunks.length = manifest.totalChunks.toNat) :
    manifest.IndexesInside ↔ manifest.totalChunks.toNat ≤ 2 ^ 32 - 8 := by
  rw [IndexesInside, packIndices_inside_iff shape, unpackIndices_inside_iff]
  constructor
  · exact And.right
  · exact fun hbound => ⟨.inl hbound, hbound⟩

theorem indexesInside_nineChunks : nineChunks.IndexesInside :=
  (indexesInside_iff rfl).mpr (by decide)

/-- A number of chunks of which the first one is stored. -/
def oneStored (totalChunks : UInt32) : TransferManifest where
  totalChunks := totalChunks
  completedChunks := (List.replicate totalChunks.toNat false).set 0 true

theorem shape_oneStored (totalChunks : UInt32) :
    (oneStored totalChunks).completedChunks.length = (oneStored totalChunks).totalChunks.toNat :=
  (List.length_set ..).trans List.length_replicate

/-- Beyond the bound neither direction stays inside of the vector, which is empty. -/
theorem oneStored_of_gt {totalChunks : UInt32} (large : 2 ^ 32 - 8 < totalChunks.toNat) :
    packedSize totalChunks = 0 ∧ (oneStored totalChunks).packBitfield = none ∧
      unpackBitfield [] totalChunks = none ∧ ¬ (oneStored totalChunks).IndexesInside := by
  have hempty : packedSize totalChunks = 0 := packedSize_of_gt large
  have hstored : true ∈ (oneStored totalChunks).completedChunks := by
    apply List.mem_set
    rw [List.length_replicate]
    omega
  refine ⟨hempty, ?_, ?_, fun hinside => ?_⟩
  · rw [← Option.not_isSome_iff_eq_none, packBitfield_isSome_iff (shape_oneStored totalChunks),
      packIndices_inside_iff (shape_oneStored totalChunks)]
    rintro (hbound | hclear)
    · exact Nat.not_lt.mpr hbound large
    · exact hclear hstored
  · have hsize : ([] : List UInt8).length = packedSize totalChunks := hempty.symm
    rw [← Option.not_isSome_iff_eq_none, unpackBitfield_isSome_iff hsize, unpackIndices_inside_iff]
    exact Nat.not_le.mpr large
  · exact Nat.not_le.mpr large (unpackIndices_inside_iff.mp hinside.2)

/-- The smallest count for which the size wraps around. -/
theorem not_indexesInside_wrapped :
    packedSize 4294967289 = 0 ∧ (oneStored 4294967289).packBitfield = none ∧
      unpackBitfield [] 4294967289 = none ∧
      ¬ ∀ manifest : TransferManifest,
        manifest.completedChunks.length = manifest.totalChunks.toNat → manifest.IndexesInside := by
  obtain ⟨hempty, hpack, hunpack, houtside⟩ := @oneStored_of_gt 4294967289 (by decide)
  exact ⟨hempty, hpack, hunpack, fun hall => houtside (hall _ (shape_oneStored _))⟩

end TransferManifest

end Sxaint.Core
