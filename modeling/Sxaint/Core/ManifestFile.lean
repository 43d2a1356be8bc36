/-
# The manifest on disk

`save` writes the fields of a manifest one after another, the hash behind its length and the
completion bits packed. `load` reads them in the same order, but only from a file that it could not
open: the test of the stream is the wrong way around. The part behind the test restores what was
saved; it is never reached.
-/

import Sxaint.Bytes.ByteStream
import Sxaint.Bytes.LittleEndian
import Sxaint.Core.Manifest

namespace Sxaint.Core

namespace TransferManifest

open ByteStream

/-! ## The code -/

/-- The completion bits of a packed vector; nothing if the loop indexes the vector beyond its
end. -/
def unpackBitfield (packed : List UInt8) (expectedChunks : UInt32) : Option (List Bool) :=
  BitField.readBits packed (List.range expectedChunks.toNat)

/-- What `save` writes, one piece after another. -/
def parts (manifest : TransferManifest) (packed : List UInt8) : List (List UInt8) :=
  [LittleEndian.encode 8 manifest.fileHash.length, manifest.fileHash,
    LittleEndian.encode 8 manifest.fileSize.toNat, LittleEndian.encode 4 manifest.chunkSize.toNat,
    LittleEndian.encode 4 manifest.totalChunks.toNat, packed]

/-- `save` into a file that was opened or not; nothing if packing has no defined result. -/
def save (manifest : TransferManifest) (file : Output) : Option Output :=
  if file.good then
    manifest.packBitfield.map fun packed => (manifest.parts packed).foldl Output.write file
  else some file

/-- `std::string::max_size`. -/
def maxSize : ℕ := 2 ^ 63 - 1

/-- `std::string::resize`. -/
def resize (text : List UInt8) (size : ℕ) : List UInt8 :=
  text.take size ++ List.replicate (size - text.length) 0

/-- The fields from a file, into a manifest; nothing if resizing the hash throws or a loop leaves
its vector. The result is false if the length of the hash cannot be read, and true in all other
cases. -/
def readFields (file : Input) (outManifest : TransferManifest) :
    Option (Bool × TransferManifest) :=
  let (hashLength, file) := file.read 8 (LittleEndian.encode 8 0)
  if !file.good then some (false, outManifest)
  else
    let hashLen := LittleEndian.decode hashLength
    if maxSize < hashLen then none
    else
      let (fileHash, file) := file.read hashLen (resize outManifest.fileHash hashLen)
      let (fileSize, file) := file.read 8 (LittleEndian.encode 8 outManifest.fileSize.toNat)
      let (chunkSize, file) := file.read 4 (LittleEndian.encode 4 outManifest.chunkSize.toNat)
      let (chunks, file) := file.read 4 (LittleEndian.encode 4 outManifest.totalChunks.toNat)
      let totalChunks := UInt32.ofNat (LittleEndian.decode chunks)
      let (packed, _) := file.read (packedSize totalChunks)
        (List.replicate (packedSize totalChunks) 0)
      (unpackBitfield packed totalChunks).map fun bits =>
        (true,
          { fileHash := fileHash
            fileSize := UInt64.ofNat (LittleEndian.decode fileSize)
            chunkSize := UInt32.ofNat (LittleEndian.decode chunkSize)
            totalChunks := totalChunks
            completedChunks := bits })

/-- `load` from a file that was opened or not. -/
def load (file : Input) (outManifest : TransferManifest) : Option (Bool × TransferManifest) :=
  if file.good then some (false, outManifest)
  else readFields file outManifest

/-! ## What is saved -/

/-- A save whose stream is good in the end has written every piece. -/
theorem written_of_save {manifest : TransferManifest} {file saved : Output}
    (fresh : file.written = []) (taken : manifest.save file = some saved)
    (good : saved.good = true) :
    ∃ packed, manifest.packBitfield = some packed ∧
      saved.written = (manifest.parts packed).flatten := by
  rw [save] at taken
  split at taken
  · obtain ⟨packed, hpacked, rfl⟩ := Option.map_eq_some_iff.mp taken
    refine ⟨packed, hpacked, ?_⟩
    rw [(Output.of_good_foldl good).2, fresh, List.nil_append]
  · rename_i hfailed
    cases taken
    exact (hfailed good).elim

/-- With room in the file a manifest with its completion bits is saved. -/
theorem exists_save {manifest : TransferManifest}
    (shape : manifest.completedChunks.length = manifest.totalChunks.toNat)
    (bound : manifest.totalChunks.toNat ≤ 2 ^ 32 - 8) :
    ∃ room saved, manifest.save { good := true, room := room } = some saved ∧
      saved.good = true := by
  obtain ⟨packed, hpacked⟩ := Option.isSome_iff_exists.mp (packBitfield_isSome shape bound)
  have hsaved : manifest.save { good := true, room := (manifest.parts packed).flatten.length } =
      some ((manifest.parts packed).foldl Output.write
        { good := true, room := (manifest.parts packed).flatten.length }) := by
    rw [save, if_pos rfl, hpacked, Option.map_some]
  exact ⟨_, _, hsaved, Output.good_foldl rfl (Nat.le_refl _)⟩

/-! ## What is loaded -/

/-- The part of `load` behind its test restores a manifest from what `save` wrote, whatever the
manifest held that it fills. -/
theorem readFields_parts {manifest : TransferManifest} {packed : List UInt8}
    (shape : manifest.completedChunks.length = manifest.totalChunks.toNat)
    (bound : manifest.totalChunks.toNat ≤ 2 ^ 32 - 8) (short : manifest.fileHash.length ≤ maxSize)
    (written : manifest.packBitfield = some packed) (outManifest : TransferManifest) :
    readFields ⟨(manifest.parts packed).flatten, true⟩ outManifest = some (true, manifest) := by
  have hlength : LittleEndian.decode (LittleEndian.encode 8 manifest.fileHash.length) =
      manifest.fileHash.length := by
    apply LittleEndian.decode_encode_of_lt
    rw [maxSize] at short
    omega
  have hresized (size : ℕ) : (resize outManifest.fileHash size).length = size := by
    simp only [resize, List.length_append, List.length_take, List.length_replicate]
    omega
  have hpacked : packed.length = packedSize manifest.totalChunks := length_packBitfield written
  have hbits : unpackBitfield packed manifest.totalChunks = some manifest.completedChunks :=
    readBits_packBitfield shape bound written
  have hfile : (manifest.parts packed).flatten =
      LittleEndian.encode 8 manifest.fileHash.length ++ (manifest.fileHash ++
        (LittleEndian.encode 8 manifest.fileSize.toNat ++
          (LittleEndian.encode 4 manifest.chunkSize.toNat ++
            (LittleEndian.encode 4 manifest.totalChunks.toNat ++ (packed ++ []))))) := by
    simp [parts]
  rw [readFields, hfile]
  simp only [Input.read_append, LittleEndian.length_encode, hlength, hresized, hpacked,
    List.length_replicate, LittleEndian.ofNat_decode_encode_uint32,
    LittleEndian.ofNat_decode_encode_uint64, hbits, Option.map_some]
  rw [if_neg (by simp), if_neg (Nat.not_lt.mpr short)]

/-- `load` says that there is nothing to resume, whatever the file. -/
theorem load_eq (file : Input) (outManifest : TransferManifest) :
    load file outManifest = some (false, outManifest) := by
  rw [load]
  split
  · rfl
  · rename_i hfailed
    have hread := Input.read_of_failed (Bool.not_eq_true _ ▸ hfailed) 8 (LittleEndian.encode 8 0)
    rw [readFields, hread]
    simp [hfailed]

/-- Loading what was saved gives the manifest back. -/
def RoundTrips (manifest : TransferManifest) : Prop :=
  ∀ (room : ℕ) (saved : Output), manifest.save { good := true, room := room } = some saved →
    saved.good = true →
      ∀ outManifest, load ⟨saved.written, true⟩ outManifest = some (true, manifest)

/-- The part of `load` behind its test gives a manifest back that was saved. -/
def Restores (manifest : TransferManifest) : Prop :=
  ∀ (room : ℕ) (saved : Output), manifest.save { good := true, room := room } = some saved →
    saved.good = true →
      ∀ outManifest, readFields ⟨saved.written, true⟩ outManifest = some (true, manifest)

/-- No manifest is loaded again. It can be saved, and the part of `load` behind the test would
restore it. -/
theorem not_roundTrips {manifest : TransferManifest}
    (shape : manifest.completedChunks.length = manifest.totalChunks.toNat)
    (bound : manifest.totalChunks.toNat ≤ 2 ^ 32 - 8) :
    ¬ manifest.RoundTrips ∧ (manifest.fileHash.length ≤ maxSize → manifest.Restores) := by
  constructor
  · intro hround
    obtain ⟨room, saved, hsaved, hgood⟩ := exists_save shape bound
    have hloaded := hround room saved hsaved hgood {}
    rw [load_eq] at hloaded
    cases hloaded
  · intro short room saved hsaved hgood outManifest
    obtain ⟨packed, hpacked, hwritten⟩ := written_of_save rfl hsaved hgood
    rw [hwritten]
    exact readFields_parts shape bound short hpacked outManifest

/-- A manifest of one stored chunk. -/
def oneChunk : TransferManifest where
  fileHash := [97]
  fileSize := 1
  chunkSize := 1
  totalChunks := 1
  completedChunks := [true]

theorem not_roundTrips_of_oneChunk : ¬ oneChunk.RoundTrips ∧ oneChunk.Restores :=
  (not_roundTrips (by decide) (by decide)).imp_right fun hrestores => hrestores (by decide)

/-- It is saved in 26 bytes, and they are not loaded. -/
theorem oneChunk_not_loaded :
    (oneChunk.save { good := true, room := 26 }).map (·.written) =
        some [1, 0, 0, 0, 0, 0, 0, 0, 97, 1, 0, 0, 0, 0, 0, 0, 0, 1, 0, 0, 0, 1, 0, 0, 0, 1] ∧
      ¬ ∀ manifest : TransferManifest,
        manifest.completedChunks.length = manifest.totalChunks.toNat →
          manifest.totalChunks.toNat ≤ 2 ^ 32 - 8 → manifest.RoundTrips := by
  refine ⟨by decide +kernel, fun hall => ?_⟩
  have hloaded := hall oneChunk (by decide) (by decide) 26 _ rfl (by decide +kernel) {}
  rw [load_eq] at hloaded
  cases hloaded

end TransferManifest

end Sxaint.Core
