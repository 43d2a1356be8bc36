/-
# A platform with known answers

A platform on which runs can be evaluated. Its digest and its cipher return the
real SHA-256 and AES-256-GCM values on the inputs of the transfers that are run
on it, and an invertible stand-in elsewhere; its host has plain ASCII names that
differ by case in no more than spelling. It is lawful, so that what is proved
from the laws of the libraries applies to it.
-/

import Sxaint.Net.Endpoint

namespace Sxaint.Net

open Sxaint.Core

namespace KnownAnswers

/-- The SHA-256 digest for the pin 123456. -/
def key : List UInt8 :=
  [96, 41, 38, 131, 118, 163, 6, 84, 249, 15, 24, 31, 252, 60, 0, 27,
    163, 174, 26, 21, 74, 123, 124, 120, 31, 189, 183, 161, 39, 5, 26, 236]

/-- The SHA-256 digest for the pin 0. -/
def keyOfZero : List UInt8 :=
  [62, 192, 117, 211, 254, 78, 175, 242, 89, 64, 54, 167, 31, 24, 105, 27,
    9, 84, 173, 42, 248, 59, 11, 52, 32, 152, 105, 105, 172, 62, 31, 158]

/-- The AES-256-GCM tag of the byte `A` as chunk 0 under `key`; the ciphertext is
the byte 50. -/
def tag : List UInt8 :=
  [133, 119, 109, 11, 1, 88, 12, 54, 133, 94, 14, 235, 178, 174, 135, 153]

/-- A known result of AES-256-GCM. -/
structure Sealing where
  key : List UInt8
  iv : List UInt8
  plaintext : List UInt8
  ciphertext : List UInt8
  tag : List UInt8
  deriving DecidableEq

/-- Chunk 0 with the byte `A` or `B`, under the two keys. -/
def sealings : List Sealing :=
  [⟨key, Crypto.iv 0, [65], [50], tag⟩,
    ⟨key, Crypto.iv 0, [66], [49],
      [156, 8, 18, 29, 137, 182, 50, 253, 151, 215, 103, 234, 252, 194, 1, 79]⟩,
    ⟨keyOfZero, Crypto.iv 0, [65], [67],
      [213, 180, 14, 166, 127, 135, 36, 198, 240, 233, 208, 103, 154, 141, 195, 106]⟩]

def ssl : OpenSSL where
  sha256 text :=
    if text = Crypto.toDecimal 123456 ++ Crypto.pinSuffix then key
    else if text = Crypto.toDecimal 0 ++ Crypto.pinSuffix then keyOfZero
    else List.replicate 32 0
  gcmEncrypt k iv plaintext :=
    match sealings.find? fun s => s.key = k ∧ s.iv = iv ∧ s.plaintext = plaintext with
    | some s => some (s.ciphertext, s.tag)
    | none => some (plaintext, List.replicate 16 0)
  gcmDecrypt k iv ciphertext t :=
    match sealings.find? fun s =>
        s.key = k ∧ s.iv = iv ∧ s.ciphertext = ciphertext ∧ s.tag = t with
    | some s => some s.plaintext
    | none => if t = List.replicate 16 0 then some ciphertext else none

theorem ssl_lawful : ssl.Lawful where
  opens k iv plaintext := by
    have hunique : ∀ s ∈ sealings, ∀ t ∈ sealings, t.key = s.key → t.iv = s.iv →
        t.ciphertext = s.ciphertext → t.tag = s.tag → t.plaintext = s.plaintext := by decide
    have hsize : ∀ s ∈ sealings, s.ciphertext.length = s.plaintext.length ∧
        s.tag.length = 16 ∧ s.tag ≠ List.replicate 16 0 := by decide
    cases hfound : sealings.find? fun s => s.key = k ∧ s.iv = iv ∧ s.plaintext = plaintext with
    | some s =>
        have hmem := List.mem_of_find?_eq_some hfound
        obtain ⟨rfl, rfl, rfl⟩ : s.key = k ∧ s.iv = iv ∧ s.plaintext = plaintext := by
          simpa using List.find?_some hfound
        refine ⟨s.ciphertext, s.tag, by simp only [ssl, hfound], (hsize s hmem).1,
          (hsize s hmem).2.1, ?_⟩
        have hopen : (sealings.find? fun t => t.key = s.key ∧ t.iv = s.iv ∧
            t.ciphertext = s.ciphertext ∧ t.tag = s.tag).isSome := by
          rw [List.find?_isSome]
          exact ⟨s, hmem, by simp⟩
        obtain ⟨t, ht⟩ := Option.isSome_iff_exists.mp hopen
        obtain ⟨hkey, hiv, hcipher, htag⟩ : t.key = s.key ∧ t.iv = s.iv ∧
            t.ciphertext = s.ciphertext ∧ t.tag = s.tag := by
          simpa using List.find?_some ht
        simp only [ssl, ht, hunique s hmem t (List.mem_of_find?_eq_some ht) hkey hiv hcipher htag]
    | none =>
        refine ⟨plaintext, List.replicate 16 0, by simp only [ssl, hfound], rfl,
          List.length_replicate, ?_⟩
        have hnone : (sealings.find? fun s => s.key = k ∧ s.iv = iv ∧ s.ciphertext = plaintext ∧
            s.tag = List.replicate 16 0) = none := by
          rw [List.find?_eq_none]
          intro s hmem hs
          have hfields : s.key = k ∧ s.iv = iv ∧ s.ciphertext = plaintext ∧
              s.tag = List.replicate 16 0 := by simpa using hs
          exact (hsize s hmem).2.2 hfields.2.2.2
        simp only [ssl, hnone, if_true]

/-- Both codecs store their input as it is. -/
def codecs : CodecLibrary where
  lz4CompressBound size := size.toNat + size.toNat / 255 + 16
  lz4CompressDefault source _ capacity :=
    if (source.length : Int) ≤ capacity ∧ source ≠ [] then some source else none
  lz4DecompressSafe source _ _ destination :=
    if source.length ≤ destination.length then
      (source.length, Buffer.overwrite destination 0 source)
    else (-1, destination)
  zstdCompressBound size := size + size / 256 + 64
  zstdCompress source capacity := if source.length ≤ capacity then some source else none
  zstdDecompress source destination :=
    if source.length ≤ destination.length then
      (some source.length, Buffer.overwrite destination 0 source)
    else (none, destination)
  lz4_length source _ _ destination := by
    split
    · exact Buffer.length_overwrite (by omega)
    · rfl
  zstd_length source destination := by
    split
    · exact Buffer.length_overwrite (by omega)
    · rfl

def host : Host where
  toNarrow text :=
    if text.all fun c => c.toNat < 128 then some (text.map fun c => UInt8.ofNat c.toNat) else none
  ofNarrow text :=
    if text.all fun b => b.toNat < 128 then some (text.map fun b => Char.ofNat b.toNat) else none
  sameFile first second := first.map Char.toLower == second.map Char.toLower

def platform : Platform := ⟨ssl, codecs, host⟩

/-- The output directory of the known runs. -/
def outputDir : Path := ⟨['d']⟩

/-- A receiver of an empty directory with the pin 123456. -/
def receiver : Endpoint :=
  Endpoint.recvFile outputDir 123456 false [outputDir]

/-- The machine of that receiver. -/
abbrev session : Transition.Machine Endpoint Event :=
  Endpoint.machine platform receiver

/-- The message of a handshake for a file named `a`. -/
def handshakeMessage (pin : UInt32) (fileSize : UInt64) (totalChunks : UInt32) : List UInt8 :=
  Handshake.encode
    { pin := pin
      fileSize := fileSize
      chunkSize := announcedChunkSize
      totalChunks := totalChunks
      fileName := Handshake.nameField [97] }

/-- A task takes a number of steps in which no operating system call fails. -/
def steps (index count : ℕ) : List Event :=
  List.replicate count (.task index true)

/-- A first handshake with the right pin arrives and is handled to the end. -/
def acceptance (fileSize : UInt64) (totalChunks : UInt32) : List Event :=
  .deliver (handshakeMessage 123456 fileSize totalChunks) :: steps 0 11

/-- The message of chunk 0 of a file that holds the byte `A`, sent as it is. -/
def chunkMessage : List UInt8 :=
  ChunkWireHeader.encode
    { chunkId := 0
      compressedSize := 17
      originalSize := 1
      crc32 := 3554254475
      compressStra := Strategy.NONE.toByte } ++ 50 :: tag

/-- That message arrives and its task, at some index, runs to the end. -/
def storage (index : ℕ) : List Event :=
  .deliver chunkMessage :: steps index 9

/-- A sender of a file named `a` that holds one byte, with the pin 123456. -/
def sender (byte : UInt8) : Endpoint :=
  (Endpoint.sendFile [97] [byte] 123456 false []).getD {}

/-- The thread of `sendFile` takes a number of steps, without compression and with
empty queues. -/
def mainSteps (count : ℕ) : List Event :=
  List.replicate count (.main .NONE fun _ => 0)

/-- A sender announces its file, is acknowledged and submits its one chunk. -/
def submission : List Event :=
  mainSteps 2 ++ [.deliver (Endpoint.ackMessage 1 [0]), .network] ++ mainSteps 4

/-- It then sends the chunk and returns. -/
def sending : List Event :=
  submission ++ steps 0 5 ++ mainSteps 3

end KnownAnswers

end Sxaint.Net
