/-
# What the checksum of a chunk detects

`crc32` is the bitwise CRC-32: a table entry is what eight shifts of the register do to a byte.
That makes it linear, so that it tells any two byte sequences apart that differ in a burst of four
bytes, and gives the law for the checksum of a concatenation, which `combine_crc32` does not follow.
-/

import Mathlib.Data.Nat.GCD.Basic
import Mathlib.Tactic.NormNum.Prime
import Sxaint.Bytes.ShiftRegister
import Sxaint.Core.Hasher

namespace Sxaint.Core

namespace Hasher

open ShiftRegister

/-! ## The bitwise checksum -/

/-- The bits of a byte in the order in which the register takes them in. -/
def bits (b : UInt8) : List Bool :=
  (List.range 8).map b.toNat.testBit

/-- The reflected polynomial of CRC-32. -/
def polynomial : BitVec 32 :=
  0xEDB88320

/-- CRC-32 as it is defined, one bit after another. -/
def crc32Bitwise (data : List UInt8) : BitVec 32 :=
  feed polynomial 0xFFFFFFFF (data.flatMap bits) ^^^ 0xFFFFFFFF

@[simp]
theorem length_bits (b : UInt8) : (bits b).length = 8 := by
  rw [bits, List.length_map, List.length_range]

@[simp]
theorem length_flatMap_bits (data : List UInt8) :
    (data.flatMap bits).length = 8 * data.length := by
  induction data with
  | nil => rfl
  | cons b data ih =>
      rw [List.flatMap_cons, List.length_append, ih, length_bits, List.length_cons]
      ring

theorem bits_injective : Function.Injective bits := by
  intro a b same
  apply UInt8.toNat_inj.mp
  apply Nat.eq_of_testBit_eq
  intro i
  by_cases hi : i < 8
  · have hbit := congrArg (·[i]?) same
    simpa [bits, hi] using hbit
  · have hlarge : 2 ^ 8 ≤ 2 ^ i := Nat.pow_le_pow_right (by decide) (by omega)
    have ha := a.toNat_lt
    have hb := b.toNat_lt
    rw [Nat.testBit_lt_two_pow (by omega), Nat.testBit_lt_two_pow (by omega)]

theorem flatMap_bits_injective : Function.Injective (List.flatMap bits) := by
  intro xs ys same
  induction xs generalizing ys with
  | nil =>
      cases ys with
      | nil => rfl
      | cons b ys =>
          have hlength := congrArg List.length same
          simp at hlength
          omega
  | cons a xs ih =>
      cases ys with
      | nil =>
          have hlength := congrArg List.length same
          simp at hlength
      | cons b ys =>
          rw [List.flatMap_cons, List.flatMap_cons] at same
          obtain ⟨hbyte, hrest⟩ := List.append_inj same (by simp)
          rw [bits_injective hbyte, ih hrest]

/-- A byte in the low places of the register. -/
theorem word_bits (b : UInt8) : (word (bits b) : BitVec 32) = b.toUInt32.toBitVec := by
  have hall : ∀ b : Fin 256, (word (bits (UInt8.ofNat b)) : BitVec 32) =
      (UInt8.ofNat b).toUInt32.toBitVec := by decide +kernel
  simpa using hall ⟨b.toNat, b.toNat_lt⟩

/-- A table entry is eight shifts of its index. -/
theorem getElem?_crc32Table {i : ℕ} (inside : i < 256) :
    crc32Table[i]? = some ⟨(shift polynomial)^[8] (BitVec.ofNat 32 i)⟩ := by
  have htable : crc32Table =
      (List.range 256).map fun i => ⟨(shift polynomial)^[8] (BitVec.ofNat 32 i)⟩ := by
    decide +kernel
  rw [htable, List.getElem?_map, List.getElem?_range inside, Option.map_some]

/-- One step of the table-driven loop takes in the eight bits of a byte. -/
theorem toBitVec_crc32Step (crc : UInt32) (b : UInt8) :
    (crc32Step crc b).toBitVec = feed polynomial crc.toBitVec (bits b) := by
  set x : UInt32 := crc ^^^ b.toUInt32 with hx
  have hindex : (x &&& 0xFF).toNat < 256 := by
    rw [UInt32.toNat_and]
    exact @Nat.and_lt_two_pow _ _ 8 (by decide)
  have hentry : (crc32Table.getD (x &&& 0xFF).toNat 0).toBitVec =
      (shift polynomial)^[8] (x &&& 0xFF).toBitVec := by
    rw [List.getD_eq_getElem?_getD, getElem?_crc32Table hindex, Option.getD_some]
    exact congrArg (shift polynomial)^[8] (BitVec.ofNat_toNat 32 (x &&& 0xFF).toBitVec)
  have hlow (i : ℕ) :
      (x &&& 0xFF).toBitVec.getLsbD i = (decide (i < 8) && x.toBitVec.getLsbD i) := by
    have hmask : ((0xFF : UInt32).toBitVec).getLsbD i = decide (i < 8) := by
      rw [show (0xFF : UInt32).toBitVec = BitVec.ofNat 32 (2 ^ 8 - 1) from rfl,
        BitVec.getLsbD_ofNat, Nat.testBit_two_pow_sub_one]
      grind
    rw [UInt32.toBitVec_and, BitVec.getLsbD_and, hmask, Bool.and_comm]
  have hhigh : x.toBitVec >>> 8 = (crc >>> 8).toBitVec := by
    have hbyte : b.toUInt32.toBitVec >>> 8 = 0 := by
      apply BitVec.eq_of_toNat_eq
      have hlt : b.toUInt32.toBitVec.toNat < 256 := by
        show b.toUInt32.toNat < 256
        rw [UInt8.toNat_toUInt32]
        exact b.toNat_lt
      rw [BitVec.toNat_ushiftRight, Nat.shiftRight_eq_div_pow]
      exact Nat.div_eq_of_lt hlt
    rw [hx, UInt32.toBitVec_xor, BitVec.ushiftRight_xor_distrib, hbyte]
    exact BitVec.xor_zero
  rw [feed_eq_iterate _ _ (by simp), word_bits, length_bits, ← UInt32.toBitVec_xor, ← hx,
    iterate_shift_split polynomial hlow, crc32Step, ← hx, UInt32.toBitVec_xor, hentry, hhigh]

theorem toBitVec_foldl_crc32Step (crc : UInt32) (data : List UInt8) :
    (data.foldl crc32Step crc).toBitVec = feed polynomial crc.toBitVec (data.flatMap bits) := by
  induction data generalizing crc with
  | nil => rfl
  | cons b data ih =>
      rw [List.foldl_cons, ih, toBitVec_crc32Step, List.flatMap_cons, feed_append]

theorem toBitVec_crc32 (data : List UInt8) : (crc32 data).toBitVec = crc32Bitwise data := by
  rw [crc32, UInt32.toBitVec_xor, toBitVec_foldl_crc32Step]
  rfl

/-- The table holds for every byte what eight steps of the bitwise checksum make of it, and the
checksum of every byte sequence is the bitwise one. -/
theorem crc32_eq_bitwise :
    (∀ b : UInt8,
      crc32Table[b.toNat]? = some ⟨(shift polynomial)^[8] (BitVec.ofNat 32 b.toNat)⟩) ∧
      ∀ data : List UInt8, crc32 data = ⟨crc32Bitwise data⟩ := by
  constructor
  · exact fun b => getElem?_crc32Table b.toNat_lt
  · exact fun data => congrArg UInt32.ofBitVec (toBitVec_crc32 data)

/-- The check value of CRC-32, for the digits from one to nine. -/
example : crc32Bitwise [49, 50, 51, 52, 53, 54, 55, 56, 57] = 0xCBF43926 := by decide +kernel

/-! ## Bursts -/

theorem top_polynomial : polynomial.getLsbD (32 - 1) = true := by
  decide

/-- Sequences that differ in a burst of at most four bytes have different checksums. -/
theorem crc32_append_ne {before first second after : List UInt8}
    (same : first.length = second.length) (short : first.length ≤ 4) (differ : first ≠ second) :
    crc32 (before ++ first ++ after) ≠ crc32 (before ++ second ++ after) := by
  intro hequal
  have hbits := congrArg UInt32.toBitVec hequal
  rw [toBitVec_crc32, toBitVec_crc32, crc32Bitwise, crc32Bitwise, BitVec.xor_left_inj] at hbits
  simp only [List.flatMap_append] at hbits
  refine feed_burst_ne polynomial top_polynomial 0xFFFFFFFF ?_ ?_ ?_ hbits
  · rw [length_flatMap_bits, length_flatMap_bits, same]
  · rw [length_flatMap_bits]
    omega
  · exact fun hsame => differ (flatMap_bits_injective hsame)

/-- The same by positions. -/
theorem crc32_ne_of_burst {xs ys : List UInt8} (same : xs.length = ys.length) (differ : xs ≠ ys)
    {k : ℕ} (burst : ∀ i, xs[i]? ≠ ys[i]? → k ≤ i ∧ i < k + 4) : crc32 xs ≠ crc32 ys := by
  have hbefore : xs.take k = ys.take k := by
    apply List.ext_getElem?
    intro i
    rw [List.getElem?_take, List.getElem?_take]
    split
    · rename_i hi
      by_contra hne
      exact absurd (burst i hne).1 (by omega)
    · rfl
  have hafter : xs.drop (k + 4) = ys.drop (k + 4) := by
    apply List.ext_getElem?
    intro i
    rw [List.getElem?_drop, List.getElem?_drop]
    by_contra hne
    exact absurd (burst _ hne).2 (by omega)
  have hsplit (zs : List UInt8) : zs = zs.take k ++ (zs.drop k).take 4 ++ zs.drop (k + 4) := by
    rw [List.append_assoc, ← List.drop_drop, List.take_append_drop, List.take_append_drop]
  have hburst : (xs.drop k).take 4 ≠ (ys.drop k).take 4 := by
    intro hsame
    rw [hsplit xs, hbefore, hsame, hafter, ← hsplit ys] at differ
    exact differ rfl
  rw [hsplit xs, hsplit ys, hbefore, hafter]
  exact crc32_append_ne (by simp [same]) (by simp) hburst

/-! ## Concatenation -/

theorem power_polynomial {bits n : ℕ} {x : BitVec 32} (small : n < 2 ^ bits)
    (value : power polynomial bits n = x) : (shift polynomial)^[n] unit = x :=
  (power_eq polynomial small).symm.trans value

/-- The polynomial is primitive: the register runs through all values but zero. -/
theorem primitive_polynomial : Primitive polynomial (2 ^ 32 - 1) where
  full := @power_polynomial 32 _ _ (by decide) (by decide +kernel)
  proper q prime divides := by
    have hfactors : 2 ^ 32 - 1 = 3 * 5 * 17 * 257 * 65537 := by decide
    rw [hfactors, prime.dvd_mul, prime.dvd_mul, prime.dvd_mul, prime.dvd_mul,
      Nat.prime_dvd_prime_iff_eq prime (by norm_num),
      Nat.prime_dvd_prime_iff_eq prime (by norm_num),
      Nat.prime_dvd_prime_iff_eq prime (by norm_num),
      Nat.prime_dvd_prime_iff_eq prime (by norm_num),
      Nat.prime_dvd_prime_iff_eq prime (by norm_num)] at divides
    rcases divides with (((rfl | rfl) | rfl) | rfl) | rfl
    · rw [@power_polynomial 32 _ 0xC736EB52 (by decide) (by decide +kernel)]
      exact ⟨0xC736EB52, by decide +kernel⟩
    · rw [@power_polynomial 32 _ 0x84011278 (by decide) (by decide +kernel)]
      exact ⟨0x3D436701, by decide +kernel⟩
    · rw [@power_polynomial 32 _ 0x8C283CA0 (by decide) (by decide +kernel)]
      exact ⟨0xE1A0922E, by decide +kernel⟩
    · rw [@power_polynomial 32 _ 0x351C22C9 (by decide) (by decide +kernel)]
      exact ⟨0x3C1C66B1, by decide +kernel⟩
    · rw [@power_polynomial 32 _ 0xDC7B5C5F (by decide) (by decide +kernel)]
      exact ⟨0xD4E6C8CA, by decide +kernel⟩

/-- What a correct combination would do: the first checksum moves on through the second part. -/
theorem toBitVec_crc32_append (first second : List UInt8) :
    (crc32 (first ++ second)).toBitVec =
      (shift polynomial)^[8 * second.length] (crc32 first).toBitVec ^^^
        (crc32 second).toBitVec := by
  rw [toBitVec_crc32, toBitVec_crc32, toBitVec_crc32]
  set reached := feed polynomial 0xFFFFFFFF (first.flatMap bits) with hreached
  have hfirst : crc32Bitwise first = reached ^^^ 0xFFFFFFFF := rfl
  have hstart : reached = 0xFFFFFFFF ^^^ crc32Bitwise first := by
    rw [hfirst, BitVec.xor_comm reached, ← BitVec.xor_assoc, BitVec.xor_self, BitVec.zero_xor]
  have hsecond := feed_xor polynomial 0xFFFFFFFF (crc32Bitwise first) (second.flatMap bits)
  rw [← hstart, length_flatMap_bits] at hsecond
  rw [crc32Bitwise, List.flatMap_append, feed_append, ← hreached, hsecond,
    BitVec.xor_comm (feed _ _ _), BitVec.xor_assoc]
  rfl

/-- `combine_crc32` gives the checksum of a concatenation exactly if the first checksum is zero or
the second part has a multiple of the period for its length. -/
theorem combineCrc32_eq_iff (first second : List UInt8) :
    combineCrc32 (crc32 first) (crc32 second) second.length = crc32 (first ++ second) ↔
      crc32 first = 0 ∨ 2 ^ 32 - 1 ∣ second.length := by
  have hcoprime : Nat.Coprime (2 ^ 32 - 1) 8 := by decide
  have hzero : (crc32 first).toBitVec = 0 ↔ crc32 first = 0 :=
    ⟨fun h => UInt32.toBitVec_inj.mp h, fun h => congrArg UInt32.toBitVec h⟩
  rw [← UInt32.toBitVec_inj, toBitVec_crc32_append, combineCrc32, UInt32.toBitVec_xor,
    BitVec.xor_left_inj, eq_comm, primitive_polynomial.iterate_shift_eq_self_iff, hzero,
    Nat.Coprime.dvd_mul_left hcoprime]

/-- The checksums of `A` and `B` do not combine to the one of `AB`. -/
theorem combineCrc32_ne_of_letters :
    ¬ ∀ first second : List UInt8,
      combineCrc32 (crc32 first) (crc32 second) second.length = crc32 (first ++ second) := by
  intro hall
  exact absurd (hall [65] [66]) (by decide +kernel)

end Hasher

end Sxaint.Core
