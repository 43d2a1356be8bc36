/-
# Serial numbers

Numbers of 32 bits that are counted up and wrap, and their difference as a signed number. Seen from
a base, the difference is that of the distances from the base, as long as they are less than half
of the range apart. So serial numbers close to each other are ordered like the distances, whatever
the base, and those below half of the range like the numbers they are.
-/

import Mathlib.Algebra.Group.Int.Defs
import Mathlib.Algebra.Group.Nat.Defs
import Mathlib.Data.Nat.Basic

namespace Serial

/-- The difference of two numbers, as a signed number. -/
def diff (later earlier : UInt32) : ℤ :=
  Int.bmod (later - earlier).toNat (2 ^ 32)

/-- How far a number is ahead of a base. -/
def offset (base n : UInt32) : ℕ :=
  (n - base).toNat

theorem offset_lt (base n : UInt32) : offset base n < 2 ^ 32 :=
  UInt32.toNat_lt _

@[simp]
theorem offset_self (base : UInt32) : offset base base = 0 := by
  rw [offset, UInt32.sub_self]
  rfl

@[simp]
theorem offset_zero (n : UInt32) : offset 0 n = n.toNat := by
  rw [offset, UInt32.sub_zero]

theorem offset_eq_emod (base n : UInt32) :
    (offset base n : ℤ) = ((n.toNat : ℤ) - base.toNat) % 2 ^ 32 := by
  have hn := n.toNat_lt
  have hbase := base.toNat_lt
  rw [offset, UInt32.toNat_sub]
  omega

theorem offset_injective {base m n : UInt32} (same : offset base m = offset base n) : m = n := by
  have hsub : m - base = n - base := UInt32.toNat_inj.mp same
  rw [← UInt32.sub_add_cancel m base, hsub, UInt32.sub_add_cancel]

/-- Counting up, as long as it does not wrap. -/
theorem offset_add {base n k : UInt32} (fits : offset base n + k.toNat < 2 ^ 32) :
    offset base (n + k) = offset base n + k.toNat := by
  have hsub : n + k - base = n - base + k := by
    rw [UInt32.sub_eq_add_neg, UInt32.sub_eq_add_neg, UInt32.add_assoc, UInt32.add_comm k,
      UInt32.add_assoc]
  rw [offset, hsub, UInt32.toNat_add]
  exact Nat.mod_eq_of_lt fits

/-- A base that moves ahead, but not past the number. -/
theorem offset_offset {base next n : UInt32} (between : offset base next ≤ offset base n) :
    offset next n = offset base n - offset base next := by
  have hnext := offset_eq_emod base next
  have hn := offset_eq_emod base n
  have hdiff := offset_eq_emod next n
  have hlt := offset_lt base n
  omega

/-- From any base, the difference is that of the distances, within half of the range. -/
theorem diff_eq {base later earlier : UInt32}
    (ahead : offset base later < offset base earlier + 2 ^ 31)
    (behind : offset base earlier ≤ offset base later + 2 ^ 31) :
    diff later earlier = (offset base later : ℤ) - offset base earlier := by
  have hlater := offset_eq_emod base later
  have hearlier := offset_eq_emod base earlier
  have hdiff := offset_eq_emod earlier later
  have hsame : diff later earlier = Int.bmod (offset earlier later) (2 ^ 32) := rfl
  rw [hsame]
  apply (Int.bmod_eq_iff (Nat.two_pow_pos 32)).mpr
  refine ⟨by omega, by omega, Int.dvd_of_emod_eq_zero ?_⟩
  omega

/-- Below half of the range the difference is that of the numbers. -/
theorem diff_eq_sub {later earlier : UInt32} (low : later.toNat < 2 ^ 31)
    (low' : earlier.toNat < 2 ^ 31) : diff later earlier = (later.toNat : ℤ) - earlier.toNat := by
  have hdiff := @diff_eq 0 later earlier
  simp only [offset_zero] at hdiff
  exact hdiff (by omega) (by omega)

/-- A number is not before a base, if it is less than half of the range ahead of it. -/
theorem diff_nonneg_iff (base n : UInt32) : 0 ≤ diff n base ↔ offset base n < 2 ^ 31 := by
  have hlt := offset_lt base n
  have hsame : diff n base = Int.bmod (offset base n) (2 ^ 32) := rfl
  rw [hsame, Int.bmod_def]
  omega

/-- Among the numbers that are not before a base, those before the end of a window from it. -/
theorem diff_add_neg_iff {base n size : UInt32} (ahead : offset base n < 2 ^ 31)
    (small : size.toNat < 2 ^ 31) : diff n (base + size) < 0 ↔ offset base n < size.toNat := by
  have hend : offset base (base + size) = size.toNat := by
    rw [offset_add]
    · rw [offset_self, Nat.zero_add]
    · rw [offset_self]
      omega
  rw [@diff_eq base n (base + size) (by omega) (by omega), hend]
  omega

/-- Two numbers that are each before the other are half of the range apart; the next one of either
is before the other. -/
theorem diff_succ_nonneg {m n : UInt32} (before : diff m n < 0) (before' : diff n m < 0) :
    0 ≤ diff n (m + 1) ∧ 0 ≤ diff (m + 1) m := by
  have hm := (diff_nonneg_iff n m).not.mp (Int.not_le.mpr before)
  have hn := (diff_nonneg_iff m n).not.mp (Int.not_le.mpr before')
  have hmod := offset_eq_emod n m
  have hmod' := offset_eq_emod m n
  have hone : (1 : UInt32).toNat = 1 := rfl
  have hsucc : offset m (m + 1) = 1 := by
    rw [offset_add]
    · rw [offset_self, hone]
    · rw [offset_self, hone]
      decide
  have hrest : offset (m + 1) n = offset m n - 1 := by
    rw [offset_offset, hsucc]
    omega
  constructor
  · rw [diff_nonneg_iff, hrest]
    omega
  · rw [diff_nonneg_iff, hsucc]
    decide

end Serial
