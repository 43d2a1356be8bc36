/-
# A file as its chunks

Slicing cuts a view into spans that adjoin, from its beginning to its end. All of them have the
chunk size but the last one, which has what is left; it is never empty, because the number of
chunks is rounded up. What slicing counts in 32 and 64 bits is exact as long as the number of
chunks fits in 32 bits and the view ends a chunk before the end of `size_t`.
-/

import Sxaint.Core.Chunker

namespace Sxaint.Core

/-- Chunks that make up a view, in order. -/
structure Partition (fileView : List UInt8) (chunkSize : ℕ) (chunks : List Chunk) : Prop where
  count : chunks.length = (fileView.length + chunkSize - 1) / chunkSize
  ids : ∀ (i : ℕ) (chunk : Chunk), chunks[i]? = some chunk → chunk.id.toNat = i
  /-- Each span is the part of the view from its offset on. -/
  spans : ∀ chunk ∈ chunks, chunk.offset + chunk.data.length ≤ fileView.length ∧
    chunk.data = Buffer.block fileView chunk.offset chunk.data.length
  begins : ∀ chunk : Chunk, chunks[0]? = some chunk → chunk.offset = 0
  adjoins : ∀ (i : ℕ) (first second : Chunk), chunks[i]? = some first →
    chunks[i + 1]? = some second → second.offset = first.offset + first.data.length
  apart : ∀ (i j : ℕ) (first second : Chunk), i < j → chunks[i]? = some first →
    chunks[j]? = some second → first.offset + first.data.length ≤ second.offset
  nonempty : ∀ chunk ∈ chunks, chunk.data ≠ []
  whole : (chunks.map Chunk.data).flatten = fileView
  full : ∀ (i : ℕ) (chunk : Chunk), i + 1 < chunks.length → chunks[i]? = some chunk →
    chunk.data.length = chunkSize
  last : ∀ (i : ℕ) (chunk : Chunk), i + 1 = chunks.length → chunks[i]? = some chunk →
    1 ≤ chunk.data.length ∧ chunk.data.length ≤ chunkSize
  flags : ∀ (i : ℕ) (chunk : Chunk), chunks[i]? = some chunk →
    chunk.flags = if i + 1 = chunks.length then 0x02 else 0
  crc32 : ∀ chunk ∈ chunks, chunk.crc32 = Hasher.crc32 chunk.data

namespace Chunker

variable {fileView : List UInt8} {chunkSize : ℕ}

/-- So many chunks reach to the end. -/
theorem length_le_mul (size : ℕ) (positive : 0 < chunkSize) :
    size ≤ (size + chunkSize - 1) / chunkSize * chunkSize := by
  have hlt := Nat.lt_mul_div_succ (size + chunkSize - 1) positive
  rw [Nat.mul_add, Nat.mul_one, Nat.mul_comm] at hlt
  omega

/-- Every chunk but the last one has the chunk size. -/
theorem chunkLength_of_succ_lt {totalSize i : ℕ} (positive : 0 < chunkSize)
    (inside : i + 1 < (totalChunks totalSize chunkSize).toNat) :
    chunkLength totalSize chunkSize i = chunkSize := by
  have hnext := offset_lt positive inside
  rw [Nat.succ_mul] at hnext
  rw [chunkLength]
  omega

/-- The chunks of a view, one after another, are the view. -/
theorem flatten_chunks {count : ℕ}
    (covered : fileView.length ≤ count * chunkSize) :
    (((List.range count).map (chunkAt fileView chunkSize)).map Chunk.data).flatten =
      fileView := by
  have hblock : Chunk.data ∘ chunkAt fileView chunkSize =
      fun i => Buffer.block fileView (i * chunkSize) chunkSize := by
    funext i
    exact Buffer.block_min fileView (i * chunkSize) chunkSize
  rw [List.map_map, hblock, Buffer.flatten_blocks, List.take_of_length_le covered]

/-- The flag of a chunk tells whether it is the last one. -/
theorem chunkAt_flags {i : ℕ} (inside : i < (totalChunks fileView.length chunkSize).toNat) :
    (chunkAt fileView chunkSize i).flags =
      if i + 1 = (totalChunks fileView.length chunkSize).toNat then 0x02 else 0 := by
  have hid : (UInt32.ofNat i).toNat = i := @toNat_chunkAt_id fileView chunkSize i inside
  have hone : (1 : UInt32) ≤ totalChunks fileView.length chunkSize :=
    UInt32.le_iff_toNat_le.mpr (Nat.one_le_of_lt inside)
  have hlast : UInt32.ofNat i = totalChunks fileView.length chunkSize - 1 ↔
      i + 1 = (totalChunks fileView.length chunkSize).toNat := by
    rw [← UInt32.toNat_inj, hid, UInt32.toNat_sub_of_le _ _ hone,
      show (1 : UInt32).toNat = 1 from rfl]
    omega
  show (if UInt32.ofNat i = totalChunks fileView.length chunkSize - 1 then (2 : UInt8) else 0) = _
  simp only [hlast]

theorem getElem?_slice (nonempty : fileView ≠ []) {i : ℕ} {chunk : Chunk} :
    (slice fileView chunkSize)[i]? = some chunk ↔
      i < (totalChunks fileView.length chunkSize).toNat ∧
        chunkAt fileView chunkSize i = chunk := by
  rw [slice, if_neg nonempty, List.getElem?_map]
  by_cases hinside : i < (totalChunks fileView.length chunkSize).toNat
  · rw [List.getElem?_range hinside]
    simp [hinside]
  · rw [List.getElem?_eq_none (by rw [List.length_range]; exact not_lt.mp hinside)]
    simp [hinside]

theorem partition_nil (positive : 0 < chunkSize) : Partition [] chunkSize (slice [] chunkSize) := by
  have hnone : ([] : List UInt8).length + chunkSize - 1 < chunkSize := by
    rw [List.length_nil]
    omega
  refine ⟨(Nat.div_eq_of_lt hnone).symm, ?_, ?_, ?_, ?_, ?_, ?_, rfl, ?_, ?_, ?_, ?_⟩
  · rintro _ _ ⟨⟩
  · rintro _ ⟨⟩
  · rintro _ ⟨⟩
  · rintro _ _ _ ⟨⟩
  · rintro _ _ _ _ - ⟨⟩
  · rintro _ ⟨⟩
  · rintro _ _ - ⟨⟩
  · rintro _ _ - ⟨⟩
  · rintro _ _ ⟨⟩
  · rintro _ ⟨⟩

/-- Slicing cuts a view into its chunks. -/
theorem partition_slice (positive : 0 < chunkSize)
    (countable : (fileView.length + chunkSize - 1) / chunkSize < 2 ^ 32)
    (fits : fileView.length + chunkSize < 2 ^ 64) :
    Partition fileView chunkSize (slice fileView chunkSize) := by
  by_cases hnil : fileView = []
  · subst hnil
    exact partition_nil positive
  have hlength := length_slice_of_ne_nil hnil chunkSize
  have hcount := toNat_totalChunks_of_lt countable fits
  have hread {i : ℕ} {chunk : Chunk} (h : (slice fileView chunkSize)[i]? = some chunk) :=
    (getElem?_slice hnil).mp h
  have hsize {i : ℕ} (h : i < (totalChunks fileView.length chunkSize).toNat) :=
    length_chunkAt_data positive h
  refine ⟨hlength.trans hcount, ?_, ?_, ?_, ?_, ?_, ?_, ?_, ?_, ?_, ?_, ?_⟩
  · rintro i chunk h
    obtain ⟨hi, rfl⟩ := hread h
    exact toNat_chunkAt_id hi
  · intro chunk hmem
    obtain ⟨i, hi, rfl⟩ := (mem_slice hnil).mp hmem
    rw [hsize hi]
    exact ⟨chunkEnd_le positive hi, rfl⟩
  · rintro chunk h
    obtain ⟨-, rfl⟩ := hread h
    exact Nat.zero_mul chunkSize
  · rintro i first second hfirst hsecond
    obtain ⟨hi, rfl⟩ := hread hfirst
    obtain ⟨hnext, rfl⟩ := hread hsecond
    rw [hsize hi, chunkLength_of_succ_lt positive hnext]
    exact Nat.succ_mul i chunkSize
  · rintro i j first second hlt hfirst hsecond
    obtain ⟨hi, rfl⟩ := hread hfirst
    obtain ⟨hj, rfl⟩ := hread hsecond
    rw [hsize hi]
    have hle : (i + 1) * chunkSize ≤ j * chunkSize := Nat.mul_le_mul_right _ hlt
    rw [Nat.succ_mul] at hle
    exact (Nat.add_le_add_left (chunkLength_le _ _ _) _).trans hle
  · intro chunk hmem
    obtain ⟨i, hi, rfl⟩ := (mem_slice hnil).mp hmem
    apply List.ne_nil_of_length_pos
    rw [hsize hi]
    exact chunkLength_pos positive hi
  · rw [slice, if_neg hnil]
    apply flatten_chunks
    rw [hcount]
    exact length_le_mul _ positive
  · rintro i chunk hlast h
    obtain ⟨hi, rfl⟩ := hread h
    rw [hlength] at hlast
    rw [hsize hi, chunkLength_of_succ_lt positive hlast]
  · rintro i chunk - h
    obtain ⟨hi, rfl⟩ := hread h
    rw [hsize hi]
    exact ⟨chunkLength_pos positive hi, chunkLength_le _ _ _⟩
  · rintro i chunk h
    obtain ⟨hi, rfl⟩ := hread h
    rw [hlength]
    exact chunkAt_flags hi
  · intro chunk hmem
    obtain ⟨i, -, rfl⟩ := (mem_slice hnil).mp hmem
    rfl

end Chunker

end Sxaint.Core
