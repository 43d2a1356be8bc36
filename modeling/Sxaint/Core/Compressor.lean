/-
# Chunk compression

The strategies a chunk can be compressed with, the compressor of the sender and
the decompressor of the receiver. LZ4 and ZSTD are library calls and stay
parameters. Decompression writes into a destination it is given, also when it
fails, so it returns the final contents of the destination besides its result.
-/

import Sxaint.Bytes.Block

namespace Sxaint.Core

/-- The LZ4 and ZSTD calls the program makes. LZ4 takes its sizes as `int`. -/
structure CodecLibrary where
  /-- `LZ4_compressBound`. -/
  lz4CompressBound : Int → ℕ
  /-- `LZ4_compress_default` of a source with its size and the destination's
  capacity: the bytes stored, or nothing if the result is not positive. -/
  lz4CompressDefault : List UInt8 → Int → Int → Option (List UInt8)
  /-- `LZ4_decompress_safe` of a source with its size and the destination's
  capacity, into a destination holding the given bytes: the result and what the
  destination holds afterwards. -/
  lz4DecompressSafe : List UInt8 → Int → Int → List UInt8 → Int × List UInt8
  /-- `ZSTD_compressBound`. -/
  zstdCompressBound : ℕ → ℕ
  /-- `ZSTD_compress` of a source into a destination of the given capacity: the
  bytes stored, or nothing on an error result. -/
  zstdCompress : List UInt8 → ℕ → Option (List UInt8)
  /-- `ZSTD_decompress` of a source into a destination holding the given bytes:
  the size, or nothing on an error result, and the destination afterwards. -/
  zstdDecompress : List UInt8 → List UInt8 → Option ℕ × List UInt8
  /-- LZ4 writes inside the destination only. -/
  lz4_length : ∀ source size capacity destination,
    (lz4DecompressSafe source size capacity destination).2.length = destination.length
  /-- ZSTD writes inside the destination only. -/
  zstd_length : ∀ source destination,
    (zstdDecompress source destination).2.length = destination.length

/-- The compression strategies, in the order of their numbers. -/
inductive Strategy
  | NONE
  | LZ4
  | ZSTD
  deriving DecidableEq, Repr

namespace Strategy

/-- The number of a strategy, as the chunk header carries it. -/
def toByte : Strategy → UInt8
  | NONE => 0
  | LZ4 => 1
  | ZSTD => 2

/-- The strategy a header byte names. The cast in the source admits every byte;
one that names no strategy is a value that no branch of the code tests for. -/
def ofByte (byte : UInt8) : Option Strategy :=
  if byte = 0 then some NONE
  else if byte = 1 then some LZ4
  else if byte = 2 then some ZSTD
  else none

@[simp]
theorem ofByte_toByte (strategy : Strategy) : ofByte strategy.toByte = some strategy := by
  cases strategy <;> rfl

end Strategy

namespace SmartCompressor

/-- `static_cast<int>` of a size. -/
def toInt (size : ℕ) : Int :=
  (BitVec.ofNat 32 size).toInt

/-- The capacity the sender reserves for a compressed chunk. -/
def getCompressBound (lib : CodecLibrary) (inputSize : ℕ) : Strategy → ℕ
  | .LZ4 => lib.lz4CompressBound (toInt inputSize)
  | .ZSTD => lib.zstdCompressBound inputSize
  | .NONE => inputSize

/-- The compressed bytes; `none` stands for each of the exceptions thrown. -/
def compress (lib : CodecLibrary) (input : List UInt8) (outputSize : ℕ) :
    Strategy → Option (List UInt8)
  | .NONE => if outputSize < input.length then none else some input
  | .LZ4 => lib.lz4CompressDefault input (toInt input.length) (toInt outputSize)
  | .ZSTD => lib.zstdCompress input outputSize

/-- Decompress into an output that holds the given bytes. The first component is
the size returned, with `none` for an exception; the second is what the output
holds afterwards. A byte that names no strategy writes nothing and returns zero. -/
def decompress (lib : CodecLibrary) (input output : List UInt8) :
    Option Strategy → Option ℕ × List UInt8
  | some .NONE =>
    if output.length < input.length then (none, output)
    else (some input.length, Buffer.overwrite output 0 input)
  | some .LZ4 =>
    let result := lib.lz4DecompressSafe input (toInt input.length) (toInt output.length) output
    if result.1 < 0 then (none, result.2) else (some result.1.toNat, result.2)
  | some .ZSTD => lib.zstdDecompress input output
  | none => (some 0, output)

/-- Decompression never changes the size of its output. -/
@[simp]
theorem length_decompress (lib : CodecLibrary) (input output : List UInt8)
    (strategy : Option Strategy) :
    (decompress lib input output strategy).2.length = output.length := by
  rcases strategy with _ | _ | _ | _
  · rfl
  · rw [decompress]
    split
    · rfl
    · exact Buffer.length_overwrite (by omega)
  · simp only [decompress]
    split <;> exact lib.lz4_length _ _ _ _
  · exact lib.zstd_length _ _

/-- What the transfer relies on for a strategy: an input of at most `limit` bytes
compresses within the reserved bound, and decompressing into an output of the
original size restores it. -/
def Inverts (lib : CodecLibrary) (limit : ℕ) (strategy : Strategy) : Prop :=
  ∀ input : List UInt8, input ≠ [] → input.length ≤ limit →
    ∃ packed, compress lib input (getCompressBound lib input.length strategy) strategy =
        some packed ∧
      packed.length ≤ getCompressBound lib input.length strategy ∧
      ∀ output : List UInt8, output.length = input.length →
        decompress lib packed output (some strategy) = (some input.length, input)

/-- The reserved bound leaves room for a tag in a 32-bit size. -/
def Bounded (lib : CodecLibrary) (limit : ℕ) (strategy : Strategy) : Prop :=
  ∀ size ≤ limit, getCompressBound lib size strategy + 16 < 2 ^ 32

/-- Storing a chunk as it is needs nothing from the libraries. -/
theorem inverts_none (lib : CodecLibrary) (limit : ℕ) : Inverts lib limit .NONE := by
  intro input _ _
  refine ⟨input, by simp [compress, getCompressBound], le_rfl, fun output hlength => ?_⟩
  simp [decompress, hlength, Buffer.overwrite]

theorem bounded_none (lib : CodecLibrary) {limit : ℕ} (small : limit ≤ 2 ^ 31) :
    Bounded lib limit .NONE := by
  intro size hsize
  rw [getCompressBound]
  omega

end SmartCompressor

end Sxaint.Core
