/-
# Little-endian fields

Fixed-width unsigned fields as byte lists, least significant byte first. The
writer drops the bits that do not fit, so reading a written field gives the
number modulo the field's range and gives the number itself whenever it fits.
-/

import Mathlib.Tactic.Ring
import Mathlib.Data.Nat.Basic

namespace LittleEndian

/-- The low `width` bytes of a number, least significant first. -/
def encode : ℕ → ℕ → List UInt8
  | 0, _ => []
  | width + 1, value => UInt8.ofNat value :: encode width (value / 256)

/-- The number a byte list spells, least significant byte first. -/
def decode : List UInt8 → ℕ
  | [] => 0
  | byte :: bytes => byte.toNat + 256 * decode bytes

@[simp]
theorem length_encode (width value : ℕ) : (encode width value).length = width := by
  induction width generalizing value with
  | zero => rfl
  | succ width ih => simp [encode, ih]

/-- Reading a written field loses exactly the bits the field has no room for. -/
theorem decode_encode (width value : ℕ) :
    decode (encode width value) = value % 256 ^ width := by
  induction width generalizing value with
  | zero => simp [encode, decode, Nat.mod_one]
  | succ width ih =>
      have hbyte : (UInt8.ofNat value).toNat = value % 256 := by simp
      rw [encode, decode, ih, hbyte, pow_succ', Nat.mod_mul]

theorem decode_lt (bytes : List UInt8) : decode bytes < 256 ^ bytes.length := by
  induction bytes with
  | nil => exact Nat.one_pos
  | cons byte bytes ih =>
      have hbyte := byte.toNat_lt
      rw [decode, List.length_cons, pow_succ]
      omega

/-- Writing what was read gives the bytes back. -/
theorem encode_decode (bytes : List UInt8) : encode bytes.length (decode bytes) = bytes := by
  induction bytes with
  | nil => rfl
  | cons byte bytes ih =>
      have hbyte := byte.toNat_lt
      have hrest : (byte.toNat + 256 * decode bytes) / 256 = decode bytes := by omega
      have hfirst : UInt8.ofNat (byte.toNat + 256 * decode bytes) = byte := by
        apply UInt8.toNat_inj.mp
        rw [UInt8.toNat_ofNat']
        omega
      rw [List.length_cons, decode, encode, hrest, hfirst, ih]

/-- A number that fits the field is read back unchanged. -/
theorem decode_encode_of_lt {width value : ℕ} (fits : value < 256 ^ width) :
    decode (encode width value) = value := by
  rw [decode_encode, Nat.mod_eq_of_lt fits]

@[simp]
theorem ofNat_decode_encode_uint32 (value : UInt32) :
    UInt32.ofNat (decode (encode 4 value.toNat)) = value := by
  rw [decode_encode_of_lt (by have := value.toNat_lt; omega), UInt32.ofNat_toNat]

@[simp]
theorem ofNat_decode_encode_uint64 (value : UInt64) :
    UInt64.ofNat (decode (encode 8 value.toNat)) = value := by
  rw [decode_encode_of_lt (by have := value.toNat_lt; omega), UInt64.ofNat_toNat]

end LittleEndian
