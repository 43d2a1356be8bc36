/-
# Decimal numbers

Numbers as the bytes of their decimal digits, and the value that a string of digits has.
-/

import Mathlib.Tactic.Ring
import Mathlib.Data.List.Basic

namespace Decimal

/-- The bytes `0` to `9`. -/
def isDigit (byte : UInt8) : Bool :=
  decide (48 ≤ byte.toNat) && decide (byte.toNat ≤ 57)

/-- One more digit behind a number. -/
def shift (value : ℕ) (digit : UInt8) : ℕ :=
  10 * value + (digit.toNat - 48)

/-- The value of a string of digits. -/
def value (digits : List UInt8) : ℕ :=
  digits.foldl shift 0

/-- The digits of a number, without leading zeros. -/
def encode (number : ℕ) : List UInt8 :=
  (Nat.toDigits 10 number).map fun c => UInt8.ofNat c.toNat

theorem toNat_of_isDigit {c : Char} (digit : c.isDigit = true) :
    (UInt8.ofNat c.toNat).toNat = c.toNat ∧ 48 ≤ c.toNat ∧ c.toNat ≤ 57 := by
  have hrange : 48 ≤ c.toNat ∧ c.toNat ≤ 57 := by
    simp only [Char.isDigit, Bool.and_eq_true, decide_eq_true_eq, ge_iff_le,
      UInt32.le_iff_toNat_le] at digit
    exact digit
  refine ⟨?_, hrange⟩
  rw [UInt8.toNat_ofNat']
  omega

theorem isDigit_of_mem_encode {number : ℕ} {byte : UInt8} (mem : byte ∈ encode number) :
    isDigit byte = true := by
  obtain ⟨c, hc, rfl⟩ := List.mem_map.mp mem
  obtain ⟨hbyte, hrange⟩ := toNat_of_isDigit
    (Nat.isDigit_of_mem_toDigits (by decide) (by decide) hc)
  rw [isDigit, hbyte]
  simpa using hrange

theorem foldl_shift_map {text : List Char} (digits : ∀ c ∈ text, c.isDigit = true) (start : ℕ) :
    (text.map fun c => UInt8.ofNat c.toNat).foldl shift start = Nat.ofDigitChars 10 text start := by
  induction text generalizing start with
  | nil => rfl
  | cons c rest ih =>
      have hbyte := (toNat_of_isDigit (digits c List.mem_cons_self)).1
      rw [List.map_cons, List.foldl_cons, ih fun d hd => digits d (List.mem_cons_of_mem c hd),
        Nat.ofDigitChars_cons, shift, hbyte]
      rfl

/-- The digits of a number have its value. -/
theorem value_encode (number : ℕ) : value (encode number) = number := by
  rw [value, encode, foldl_shift_map fun c hc =>
    Nat.isDigit_of_mem_toDigits (by decide) (by decide) hc]
  exact Nat.ofDigitChars_ten_toDigits

theorem foldl_shift_lt {digits : List UInt8} (all : ∀ byte ∈ digits, isDigit byte = true)
    (start : ℕ) : digits.foldl shift start < (start + 1) * 10 ^ digits.length := by
  induction digits generalizing start with
  | nil => simp
  | cons digit rest ih =>
      have hdigit := all digit List.mem_cons_self
      simp only [isDigit, Bool.and_eq_true, decide_eq_true_eq] at hdigit
      have hshift : shift start digit + 1 ≤ (start + 1) * 10 := by
        rw [shift]
        omega
      calc (digit :: rest).foldl shift start
          < (shift start digit + 1) * 10 ^ rest.length :=
            ih (fun byte hmem => all byte (List.mem_cons_of_mem digit hmem)) _
        _ ≤ (start + 1) * 10 * 10 ^ rest.length := Nat.mul_le_mul_right _ hshift
        _ = (start + 1) * 10 ^ (digit :: rest).length := by
            rw [List.length_cons, Nat.pow_succ, Nat.mul_assoc, Nat.mul_comm 10]

/-- A number has as many digits as it needs. -/
theorem value_lt {digits : List UInt8} (all : ∀ byte ∈ digits, isDigit byte = true) :
    value digits < 10 ^ digits.length := by
  simpa [value] using foldl_shift_lt all 0

end Decimal
