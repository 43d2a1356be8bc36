/-
# Entropy of a finite distribution

A distribution on finitely many points, all of positive mass. Its entropy is the surprisal of a
point on average; it lies between zero and the logarithm of the number of points. The plain sum of
the surprisals exceeds it by at least one bit as soon as there are two points, and by exactly one
for two points of equal mass only.
-/

import Mathlib.Algebra.BigOperators.Field
import Mathlib.Analysis.Complex.ExponentialBounds
import Mathlib.Analysis.SpecialFunctions.Log.Base

noncomputable section

universe u

/-- Positive masses on finitely many points that sum to one. -/
structure FiniteDistribution (α : Type u) where
  support : Finset α
  mass : α → ℝ
  positive : ∀ a ∈ support, 0 < mass a
  total : ∑ a ∈ support, mass a = 1

namespace FiniteDistribution

variable {α : Type u} (d : FiniteDistribution α)

theorem mass_le_one {a : α} (mem : a ∈ d.support) : d.mass a ≤ 1 := by
  rw [← d.total]
  exact Finset.single_le_sum (fun b hb => (d.positive b hb).le) mem

theorem support_nonempty : d.support.Nonempty := by
  by_contra hempty
  have htotal := d.total
  rw [Finset.not_nonempty_iff_eq_empty.mp hempty, Finset.sum_empty] at htotal
  exact zero_ne_one htotal

/-- The logarithm to base two. -/
def log2 (x : ℝ) : ℝ :=
  Real.logb 2 x

/-- The surprisal of a point, in bits. -/
def surprisal (a : α) : ℝ :=
  -log2 (d.mass a)

/-- The Shannon entropy, in bits. -/
def entropy : ℝ :=
  ∑ a ∈ d.support, d.mass a * d.surprisal a

/-- How much the sum of the surprisals exceeds their average. -/
def excess : ℝ :=
  ∑ a ∈ d.support, (1 - d.mass a) * d.surprisal a

theorem entropy_eq_neg_sum :
    d.entropy = -∑ a ∈ d.support, d.mass a * log2 (d.mass a) := by
  simp [entropy, surprisal]

theorem sum_surprisal : ∑ a ∈ d.support, d.surprisal a = d.entropy + d.excess := by
  rw [entropy, excess, ← Finset.sum_add_distrib]
  apply Finset.sum_congr rfl
  intro a _
  ring

theorem surprisal_mul_log (a : α) : d.surprisal a * Real.log 2 = -Real.log (d.mass a) := by
  have hlog : Real.log 2 ≠ 0 := (Real.log_pos one_lt_two).ne'
  rw [surprisal, log2, Real.logb]
  field_simp

theorem surprisal_nonneg {a : α} (mem : a ∈ d.support) : 0 ≤ d.surprisal a := by
  rw [surprisal, Left.nonneg_neg_iff]
  exact Real.logb_nonpos one_lt_two (d.positive a mem).le (d.mass_le_one mem)

/-! ## Bounds of the entropy -/

theorem entropy_nonneg : 0 ≤ d.entropy :=
  Finset.sum_nonneg fun a mem => mul_nonneg (d.positive a mem).le (d.surprisal_nonneg mem)

theorem entropy_le_log2_card : d.entropy ≤ log2 d.support.card := by
  have hlog : 0 < Real.log 2 := Real.log_pos one_lt_two
  have hcard : (0 : ℝ) < d.support.card := Nat.cast_pos.mpr d.support_nonempty.card_pos
  have hpoint : ∀ a ∈ d.support,
      -(d.mass a * Real.log (d.mass a)) - d.mass a * Real.log d.support.card ≤
        1 / d.support.card - d.mass a := by
    intro a mem
    have hmass := d.positive a mem
    have hinverse := Real.log_le_sub_one_of_pos (one_div_pos.mpr (mul_pos hmass hcard))
    rw [Real.log_div one_ne_zero (mul_pos hmass hcard).ne', Real.log_one,
      Real.log_mul hmass.ne' hcard.ne'] at hinverse
    calc
      _ = d.mass a * (0 - (Real.log (d.mass a) + Real.log d.support.card)) := by ring
      _ ≤ d.mass a * (1 / (d.mass a * d.support.card) - 1) :=
        mul_le_mul_of_nonneg_left hinverse hmass.le
      _ = 1 / d.support.card - d.mass a := by field_simp
  have hsum := Finset.sum_le_sum hpoint
  rw [Finset.sum_sub_distrib, Finset.sum_sub_distrib, ← Finset.sum_mul, d.total, Finset.sum_const,
    nsmul_eq_mul, mul_one_div_cancel hcard.ne', Finset.sum_neg_distrib] at hsum
  have hentropy : d.entropy * Real.log 2 = -∑ a ∈ d.support, d.mass a * Real.log (d.mass a) := by
    rw [entropy, Finset.sum_mul, ← Finset.sum_neg_distrib]
    apply Finset.sum_congr rfl
    intro a _
    rw [mul_assoc, d.surprisal_mul_log]
    ring
  rw [log2, Real.logb, le_div_iff₀ hlog]
  linarith

/-! ## The excess of the sum -/

theorem excess_mul_log :
    d.excess * Real.log 2 = ∑ a ∈ d.support, (1 - d.mass a) * -Real.log (d.mass a) := by
  rw [excess, Finset.sum_mul]
  apply Finset.sum_congr rfl
  intro a _
  rw [mul_assoc, d.surprisal_mul_log]

theorem excess_of_singleton {a : α} (single : d.support = {a}) : d.excess = 0 := by
  have hmass : d.mass a = 1 := by
    have htotal := d.total
    rwa [single, Finset.sum_singleton] at htotal
  rw [excess, single, Finset.sum_singleton, hmass, sub_self, zero_mul]

/-- With three points or more the surprisals are far above their average. -/
theorem one_lt_excess (many : 3 ≤ d.support.card) : 1 < d.excess := by
  have hlog : 0 < Real.log 2 := Real.log_pos one_lt_two
  have hsmall : Real.log 2 < 1 := lt_trans Real.log_two_lt_d9 (by norm_num)
  have hpoint : ∀ a ∈ d.support, 1 - 2 * d.mass a ≤ (1 - d.mass a) * -Real.log (d.mass a) := by
    intro a mem
    have hbound := Real.log_le_sub_one_of_pos (d.positive a mem)
    have hrest : 0 ≤ 1 - d.mass a := sub_nonneg.mpr (d.mass_le_one mem)
    calc
      1 - 2 * d.mass a ≤ (1 - d.mass a) * (1 - d.mass a) := by
        linarith [sq_nonneg (d.mass a)]
      _ ≤ (1 - d.mass a) * -Real.log (d.mass a) :=
        mul_le_mul_of_nonneg_left (by linarith) hrest
  have hsum := Finset.sum_le_sum hpoint
  rw [Finset.sum_sub_distrib, ← Finset.mul_sum, d.total, Finset.sum_const, nsmul_eq_mul,
    ← excess_mul_log] at hsum
  have hcount : (3 : ℝ) ≤ d.support.card := by exact_mod_cast many
  have hone : Real.log 2 < d.excess * Real.log 2 := by linarith
  exact (lt_mul_iff_one_lt_left hlog).mp hone

/-- With two points the sum exceeds the average by one bit and what the masses differ. -/
theorem sq_le_excess_of_pair [DecidableEq α] {a b : α} (differ : a ≠ b)
    (pair : d.support = {a, b}) :
    (d.mass a - d.mass b) ^ 2 ≤ (d.excess - 1) * Real.log 2 := by
  have ha : 0 < d.mass a := d.positive a (by simp [pair])
  have hb : 0 < d.mass b := d.positive b (by simp [pair])
  have htotal := d.total
  have hexcess := d.excess_mul_log
  rw [pair, Finset.sum_pair differ] at htotal hexcess
  have hdouble (a : α) (mass : 0 < d.mass a) :
      Real.log 2 + Real.log (d.mass a) ≤ 2 * d.mass a - 1 := by
    rw [← Real.log_mul two_ne_zero mass.ne']
    exact Real.log_le_sub_one_of_pos (mul_pos two_pos mass)
  have hleft := mul_le_mul_of_nonneg_left (hdouble a ha) hb.le
  have hright := mul_le_mul_of_nonneg_left (hdouble b hb) ha.le
  have hb' : d.mass b = 1 - d.mass a := by linarith
  rw [sub_mul, hexcess, one_mul]
  rw [hb'] at hleft hright ⊢
  nlinarith

/-- The sum exceeds the average by one bit exactly for two points of equal mass. -/
theorem excess_eq_one_iff [DecidableEq α] :
    d.excess = 1 ↔ ∃ a b, a ≠ b ∧ d.support = {a, b} ∧ d.mass a = d.mass b := by
  constructor
  · intro hone
    have hfew : d.support.card < 3 := by
      by_contra hmany
      exact (d.one_lt_excess (Nat.le_of_not_lt hmany)).ne' hone
    have hcard := d.support_nonempty.card_pos
    obtain hsingle | hpair : d.support.card = 1 ∨ d.support.card = 2 := by omega
    · obtain ⟨a, ha⟩ := Finset.card_eq_one.mp hsingle
      rw [d.excess_of_singleton ha] at hone
      exact (zero_ne_one hone).elim
    · obtain ⟨a, b, hne, hab⟩ := Finset.card_eq_two.mp hpair
      have hsquare := d.sq_le_excess_of_pair hne hab
      rw [hone, sub_self, zero_mul] at hsquare
      exact ⟨a, b, hne, hab, sub_eq_zero.mp (pow_eq_zero_iff two_ne_zero |>.mp
        (le_antisymm hsquare (sq_nonneg _)))⟩
  · rintro ⟨a, b, hne, hab, hsame⟩
    have htotal := d.total
    rw [hab, Finset.sum_pair hne, ← hsame] at htotal
    have hhalf : d.mass a = 2⁻¹ := by linarith
    have hlog : Real.log 2 ≠ 0 := (Real.log_pos one_lt_two).ne'
    have hexcess := d.excess_mul_log
    rw [hab, Finset.sum_pair hne, ← hsame, hhalf, Real.log_inv, neg_neg, ← add_mul] at hexcess
    exact mul_right_cancel₀ hlog (hexcess.trans (by ring))

theorem one_le_excess [DecidableEq α] (several : 2 ≤ d.support.card) : 1 ≤ d.excess := by
  obtain hpair | hmany : d.support.card = 2 ∨ 3 ≤ d.support.card := by omega
  · obtain ⟨a, b, hne, hab⟩ := Finset.card_eq_two.mp hpair
    have hsquare := (sq_nonneg _).trans (d.sq_le_excess_of_pair hne hab)
    exact sub_nonneg.mp (nonneg_of_mul_nonneg_left hsquare (Real.log_pos one_lt_two))
  · exact (d.one_lt_excess hmany).le

end FiniteDistribution

end
