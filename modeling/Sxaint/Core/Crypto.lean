/-
# Chunk encryption

The key and the nonce of every chunk, and the sealed payload that goes on the
wire. SHA-256 and AES-256-GCM are library calls and stay parameters; what the
program adds is how it derives a key from a pin and a nonce from a chunk id.
-/

import Sxaint.Bytes.LittleEndian

namespace Sxaint.Core

/-- The OpenSSL calls the program makes. -/
structure OpenSSL where
  /-- The digest of a byte string. -/
  sha256 : List UInt8 → List UInt8
  /-- The `EVP_Encrypt` calls for AES-256-GCM with a key, a nonce and a plaintext:
  the ciphertext and its tag, or nothing if one of the calls fails. -/
  gcmEncrypt : List UInt8 → List UInt8 → List UInt8 → Option (List UInt8 × List UInt8)
  /-- The `EVP_Decrypt` calls for AES-256-GCM with a key, a nonce, a ciphertext and
  its tag: the plaintext, or nothing if a call or the tag check fails. -/
  gcmDecrypt : List UInt8 → List UInt8 → List UInt8 → List UInt8 → Option (List UInt8)

/-- What the program relies on: sealing succeeds, keeps the length, adds a tag of
16 bytes, and opening under the same key and nonce gives the plaintext back. -/
structure OpenSSL.Lawful (ssl : OpenSSL) : Prop where
  /-- A sealed plaintext has its own length and opens to itself. -/
  opens : ∀ key iv plaintext, ∃ ciphertext tag,
    ssl.gcmEncrypt key iv plaintext = some (ciphertext, tag) ∧
      ciphertext.length = plaintext.length ∧ tag.length = 16 ∧
      ssl.gcmDecrypt key iv ciphertext tag = some plaintext

namespace Crypto

/-- The text that is hashed together with a pin. -/
def pinSuffix : List UInt8 :=
  "sxaint_taintx_xsaint".toList.map fun c => UInt8.ofNat c.toNat

/-- `std::to_string` of an unsigned number, as bytes. -/
def toDecimal (value : ℕ) : List UInt8 :=
  (Nat.toDigits 10 value).map fun c => UInt8.ofNat c.toNat

/-- The key of a transfer depends on its pin only. -/
def deriveKey (ssl : OpenSSL) (pin : UInt32) : List UInt8 :=
  ssl.sha256 (toDecimal pin.toNat ++ pinSuffix)

/-- The nonce of a chunk: its id in four bytes, then eight zero bytes. -/
def iv (chunkId : UInt32) : List UInt8 :=
  LittleEndian.encode 4 chunkId.toNat ++ List.replicate 8 0

/-- Seal a plaintext; the tag follows the ciphertext. -/
def encrypt (ssl : OpenSSL) (plaintext key : List UInt8) (chunkId : UInt32) :
    Option (List UInt8) :=
  (ssl.gcmEncrypt key (iv chunkId) plaintext).map fun sealed => sealed.1 ++ sealed.2

/-- Open a sealed payload; `none` stands for each of the exceptions thrown. -/
def decrypt (ssl : OpenSSL) (ciphertext key : List UInt8) (chunkId : UInt32) :
    Option (List UInt8) :=
  if ciphertext.length < 16 then none
  else
    let actualCipherLen := ciphertext.length - 16
    ssl.gcmDecrypt key (iv chunkId) (ciphertext.take actualCipherLen)
      (ciphertext.drop actualCipherLen)

/-- Different chunk ids give different nonces. -/
theorem iv_injective : Function.Injective iv := by
  intro first second same
  have hfield := (List.append_inj same (by simp)).1
  have hvalue := congrArg LittleEndian.decode hfield
  rw [LittleEndian.decode_encode_of_lt first.toNat_lt,
    LittleEndian.decode_encode_of_lt second.toNat_lt] at hvalue
  exact UInt32.toNat_inj.mp hvalue

/-- A lawful library seals every plaintext into a payload 16 bytes longer, which
opens to the plaintext under the same key and chunk id. -/
theorem decrypt_encrypt {ssl : OpenSSL} (lawful : ssl.Lawful)
    (plaintext key : List UInt8) (chunkId : UInt32) :
    ∃ sealed, encrypt ssl plaintext key chunkId = some sealed ∧
      sealed.length = plaintext.length + 16 ∧
      decrypt ssl sealed key chunkId = some plaintext := by
  obtain ⟨ciphertext, tag, hseal, hlength, htag, hopen⟩ :=
    lawful.opens key (iv chunkId) plaintext
  refine ⟨ciphertext ++ tag, by rw [encrypt, hseal, Option.map_some], ?_, ?_⟩
  · rw [List.length_append, hlength, htag]
  · have hcut : (ciphertext ++ tag).length - 16 = ciphertext.length := by
      rw [List.length_append, htag, Nat.add_sub_cancel]
    rw [decrypt, if_neg (by rw [List.length_append, htag]; omega)]
    simp only [hcut, List.take_left, List.drop_left]
    exact hopen

end Crypto

end Sxaint.Core
