/-
# Feedback shift registers

A register of any width that is shifted toward its low bit; a bit that leaves it feeds back into
the taps. Shifting is linear over exclusive or. A register is fed bit strings through its low bit,
so a string no longer than the register acts as one word, and two strings that differ in a burst of
at most that length never leave equal registers behind.

The top bit is the unit of a product for which shifting is multiplication. With it the period of a
register is computed by repeated squaring.
-/

import Mathlib.Data.Nat.Prime.Basic
import Mathlib.Dynamics.PeriodicPts.Defs
import Mathlib.Tactic.Ring
import Mathlib.Tactic.SplitIfs

namespace ShiftRegister

variable {w : ℕ}

/-! ## Linear maps -/

/-- The map respects exclusive or. -/
def Linear (f : BitVec w → BitVec w) : Prop :=
  ∀ x y, f (x ^^^ y) = f x ^^^ f y

theorem Linear.zero {f : BitVec w → BitVec w} (linear : Linear f) : f 0 = 0 := by
  have hdouble := linear 0 0
  rw [BitVec.xor_self] at hdouble
  exact hdouble.trans BitVec.xor_self

theorem Linear.iterate {f : BitVec w → BitVec w} (linear : Linear f) (n : ℕ) :
    Linear f^[n] := by
  induction n with
  | zero => exact fun _ _ => rfl
  | succ n ih =>
      intro x y
      rw [Function.iterate_succ_apply, linear, ih, ← Function.iterate_succ_apply,
        ← Function.iterate_succ_apply]

/-- A linear map that sends nothing else to zero is injective. -/
theorem Linear.injective {f : BitVec w → BitVec w} (linear : Linear f)
    (kernel : ∀ x, f x = 0 → x = 0) : Function.Injective f := by
  intro x y same
  have hdifference : f (x ^^^ y) = 0 := by
    rw [linear, same]
    exact BitVec.xor_self
  exact BitVec.xor_eq_zero_iff.mp (kernel _ hdifference)

/-! ## Shifting -/

variable (taps : BitVec w)

/-- One shift. -/
def shift (x : BitVec w) : BitVec w :=
  if x.getLsbD 0 then (x >>> 1) ^^^ taps else x >>> 1

theorem shift_of_even {x : BitVec w} (even : x.getLsbD 0 = false) : shift taps x = x >>> 1 := by
  rw [shift, if_neg (by simp [even])]

theorem linear_shift : Linear (shift taps) := by
  intro x y
  apply BitVec.eq_of_getLsbD_eq
  intro i _
  simp only [shift, BitVec.getLsbD_xor]
  cases x.getLsbD 0 <;> cases y.getLsbD 0 <;> simp <;>
    cases taps.getLsbD i <;> simp

/-- While its low bits are clear a register is shifted without feedback. -/
theorem iterate_shift_of_low {x : BitVec w} {n : ℕ} (low : ∀ i < n, x.getLsbD i = false) :
    (shift taps)^[n] x = x >>> n := by
  induction n with
  | zero => simp
  | succ n ih =>
      have hbit : (x >>> n).getLsbD 0 = false := by simpa using low n (Nat.lt_succ_self n)
      rw [Function.iterate_succ_apply', ih fun i hi => low i (Nat.lt_succ_of_lt hi),
        shift_of_even taps hbit, ← BitVec.shiftRight_add]

/-- Some shifts of a register, by the shifts of its low bits alone. -/
theorem iterate_shift_split {x low : BitVec w} {n : ℕ}
    (bits : ∀ i, low.getLsbD i = (decide (i < n) && x.getLsbD i)) :
    (shift taps)^[n] x = (x >>> n) ^^^ (shift taps)^[n] low := by
  have hsum : x = (x ^^^ low) ^^^ low := by rw [BitVec.xor_assoc, BitVec.xor_self, BitVec.xor_zero]
  have hclear : ∀ i < n, (x ^^^ low).getLsbD i = false := by
    intro i hi
    simp [bits, hi]
  have hhigh : (x ^^^ low) >>> n = x >>> n := by
    apply BitVec.eq_of_getLsbD_eq
    intro i _
    simp [bits]
  conv_lhs => rw [hsum]
  rw [(linear_shift taps).iterate, iterate_shift_of_low taps hclear, hhigh]

/-- With a tap at the top, what was fed back can be read off the top bit. -/
theorem shift_injective (top : taps.getLsbD (w - 1) = true) :
    Function.Injective (shift taps) := by
  apply (linear_shift taps).injective
  intro x hzero
  have hempty : (x >>> 1).getLsbD (w - 1) = false := by
    rw [BitVec.getLsbD_ushiftRight]
    exact BitVec.getLsbD_of_ge _ _ (by omega)
  rw [shift] at hzero
  split_ifs at hzero with hodd
  · rw [BitVec.xor_eq_zero_iff.mp hzero, top] at hempty
    cases hempty
  · apply BitVec.eq_of_getLsbD_eq
    intro i _
    cases i with
    | zero => simpa using hodd
    | succ i =>
        have hbit := congrArg (BitVec.getLsbD · i) hzero
        simpa [Nat.add_comm] using hbit

theorem iterate_shift_injective (top : taps.getLsbD (w - 1) = true) (n : ℕ) :
    Function.Injective (shift taps)^[n] :=
  (shift_injective taps top).iterate n

/-! ## Feeding bits -/

/-- A bit in the lowest place. -/
def lowBit (b : Bool) : BitVec w :=
  (BitVec.ofBool b).setWidth w

/-- Take in one bit. -/
def feedBit (x : BitVec w) (b : Bool) : BitVec w :=
  shift taps (x ^^^ lowBit b)

/-- Take in a bit string, first bit first. -/
def feed (x : BitVec w) (bits : List Bool) : BitVec w :=
  bits.foldl (feedBit taps) x

/-- A bit string as a word, first bit lowest. -/
def word (bits : List Bool) : BitVec w :=
  (BitVec.ofBoolListLE bits).setWidth w

theorem feed_append (x : BitVec w) (first second : List Bool) :
    feed taps x (first ++ second) = feed taps (feed taps x first) second :=
  List.foldl_append

/-- Feeding superposes: what was in the register before moves on as if nothing was fed. -/
theorem feed_xor (x y : BitVec w) (bits : List Bool) :
    feed taps (x ^^^ y) bits = feed taps x bits ^^^ (shift taps)^[bits.length] y := by
  induction bits generalizing x y with
  | nil => rfl
  | cons b bits ih =>
      have hstep : feedBit taps (x ^^^ y) b = feedBit taps x b ^^^ shift taps y := by
        rw [feedBit, feedBit, ← linear_shift, BitVec.xor_assoc, BitVec.xor_comm y,
          ← BitVec.xor_assoc]
      rw [feed, List.foldl_cons, hstep, ← feed, ih, List.length_cons,
        Function.iterate_succ_apply]
      rfl

theorem feed_injective (top : taps.getLsbD (w - 1) = true) (bits : List Bool) :
    Function.Injective fun x => feed taps x bits := by
  intro x y same
  have hx := feed_xor taps 0 x bits
  have hy := feed_xor taps 0 y bits
  have hzero (z : BitVec w) : 0 ^^^ z = z := BitVec.zero_xor
  rw [hzero] at hx hy
  simp only [hx, hy] at same
  exact iterate_shift_injective taps top _ ((BitVec.xor_right_inj _).mp same)

theorem getLsbD_word (bits : List Bool) (i : ℕ) :
    (word bits : BitVec w).getLsbD i = (decide (i < w) && bits.getD i false) := by
  rw [word, BitVec.getLsbD_setWidth, BitVec.getLsbD_ofBoolListLE]

/-- A string that fits the register acts as one word. -/
theorem feed_eq_iterate (x : BitVec w) {bits : List Bool} (fits : bits.length ≤ w) :
    feed taps x bits = (shift taps)^[bits.length] (x ^^^ word bits) := by
  induction bits generalizing x with
  | nil =>
      have hnone : (word [] : BitVec w) = 0 := by
        apply BitVec.eq_of_getLsbD_eq
        simp [getLsbD_word]
      rw [hnone]
      exact BitVec.xor_zero.symm
  | cons b bits ih =>
      rw [List.length_cons] at fits
      -- the rest of the word, as it stands before the first shift
      have hrest : (word bits : BitVec w) = shift taps ((word bits : BitVec w) <<< 1) := by
        rw [shift_of_even taps (by simp)]
        apply BitVec.eq_of_getLsbD_eq
        intro i hi
        simp only [BitVec.getLsbD_ushiftRight, BitVec.getLsbD_shiftLeft, getLsbD_word]
        by_cases hlast : i + 1 < w
        · simp [hi, Nat.add_comm 1 i, hlast]
        · have hout : bits[i]? = none := List.getElem?_eq_none (by omega)
          simp [hout]
      have hsplit : (word (b :: bits) : BitVec w) = lowBit b ^^^ (word bits <<< 1) := by
        apply BitVec.eq_of_getLsbD_eq
        intro i hi
        simp only [BitVec.getLsbD_xor, BitVec.getLsbD_shiftLeft, getLsbD_word, lowBit,
          BitVec.getLsbD_setWidth, BitVec.getLsbD_ofBool]
        cases i with
        | zero => simp [hi]
        | succ i => simp [hi, Nat.lt_of_succ_lt hi]
      rw [feed, List.foldl_cons, ← feed, ih _ (by omega), feedBit, hsplit, List.length_cons,
        Function.iterate_succ_apply, ← BitVec.xor_assoc, linear_shift taps (x ^^^ lowBit b),
        ← hrest]

theorem word_injective {first second : List Bool} (same : first.length = second.length)
    (fits : first.length ≤ w) (words : (word first : BitVec w) = word second) :
    first = second := by
  apply List.ext_getElem same
  intro i hfirst hsecond
  have hbit := congrArg (BitVec.getLsbD · i) words
  simp only [getLsbD_word] at hbit
  simpa [hfirst, hsecond, Nat.lt_of_lt_of_le hfirst fits] using hbit

/-- Strings that differ in a burst no longer than the register leave different registers. -/
theorem feed_burst_ne (top : taps.getLsbD (w - 1) = true) (x : BitVec w)
    {before first second after : List Bool} (same : first.length = second.length)
    (fits : first.length ≤ w) (differ : first ≠ second) :
    feed taps x (before ++ first ++ after) ≠ feed taps x (before ++ second ++ after) := by
  intro hequal
  simp only [feed_append] at hequal
  have hburst := feed_injective taps top after hequal
  rw [@feed_eq_iterate w taps _ first fits, @feed_eq_iterate w taps _ second (same ▸ fits),
    same] at hburst
  have hwords := iterate_shift_injective taps top _ hburst
  exact differ (word_injective same fits ((BitVec.xor_right_inj _).mp hwords))

/-! ## The period -/

/-- The register that one shift after another runs through from the top bit down. -/
def unit : BitVec w :=
  BitVec.twoPow w (w - 1)

/-- The product of two registers: each bit of the first stands for the second, shifted as often as
the bit lies below the top. -/
def mul (x y : BitVec w) : BitVec w :=
  (List.range w).foldl (fun acc i => shift taps acc ^^^ if x.getLsbD i then y else 0) 0

/-- A linear map that commutes with shifting can be moved inside a product. -/
theorem map_mul {f : BitVec w → BitVec w} (linear : Linear f)
    (commutes : Function.Commute f (shift taps)) (x y : BitVec w) :
    f (mul taps x y) = mul taps x (f y) := by
  have hfold (places : List ℕ) (acc : BitVec w) :
      f (places.foldl (fun acc i => shift taps acc ^^^ if x.getLsbD i then y else 0) acc) =
        places.foldl (fun acc i => shift taps acc ^^^ if x.getLsbD i then f y else 0) (f acc) := by
    induction places generalizing acc with
    | nil => rfl
    | cons i places ih =>
        have hplace : f (if x.getLsbD i then y else 0) = if x.getLsbD i then f y else 0 := by
          split
          · rfl
          · exact linear.zero
        rw [List.foldl_cons, ih, linear, commutes.eq, hplace, List.foldl_cons]
  rw [mul, hfold, linear.zero]
  rfl

/-- The unit is one: its shifts are the single bits. -/
theorem mul_unit (x : BitVec w) : mul taps x unit = x := by
  have hfold (n : ℕ) (within : n ≤ w) :
      (List.range n).foldl
          (fun acc i => shift taps acc ^^^ if x.getLsbD i then unit else 0) (0 : BitVec w) =
        x <<< (w - n) := by
    induction n with
    | zero => simp [BitVec.shiftLeft_eq_zero]
    | succ n ih =>
        rw [List.range_succ, List.foldl_append, ih (Nat.le_of_succ_le within), List.foldl_cons,
          List.foldl_nil, shift_of_even taps (by simp; omega)]
        apply BitVec.eq_of_getLsbD_eq
        intro i hi
        have hunit : (if x.getLsbD n then unit else 0 : BitVec w).getLsbD i =
            (decide (i = w - 1) && x.getLsbD n) := by
          cases hbit : x.getLsbD n with
          | true =>
              simp only [if_true, unit, BitVec.getLsbD_twoPow, Bool.and_true]
              grind
          | false => simp
        rw [BitVec.getLsbD_xor, hunit]
        simp only [BitVec.getLsbD_ushiftRight, BitVec.getLsbD_shiftLeft]
        grind
  rw [mul, hfold w le_rfl, Nat.sub_self, BitVec.shiftLeft_zero]

theorem linear_mul (x : BitVec w) : Linear (mul taps x) := by
  intro y z
  have hfold (places : List ℕ) (acc acc' : BitVec w) :
      places.foldl
          (fun acc i => shift taps acc ^^^ if x.getLsbD i then y ^^^ z else 0) (acc ^^^ acc') =
        places.foldl (fun acc i => shift taps acc ^^^ if x.getLsbD i then y else 0) acc ^^^
          places.foldl (fun acc i => shift taps acc ^^^ if x.getLsbD i then z else 0) acc' := by
    induction places generalizing acc acc' with
    | nil => rfl
    | cons i places ih =>
        rw [List.foldl_cons, List.foldl_cons, List.foldl_cons, ← ih, linear_shift]
        congr 1
        apply BitVec.eq_of_getLsbD_eq
        intro j _
        cases x.getLsbD i <;> simp [Bool.xor_left_comm]
  have hzero := hfold (List.range w) 0 0
  have hsum : (0 : BitVec w) ^^^ 0 = 0 := BitVec.xor_self
  rwa [hsum] at hzero

theorem commute_mul (x : BitVec w) : Function.Commute (mul taps x) (shift taps) :=
  fun y => (map_mul taps (linear_shift taps) (.refl _) x y).symm

/-- Shifting is multiplication by a power. -/
theorem iterate_shift_eq_mul (n : ℕ) (x : BitVec w) :
    (shift taps)^[n] x = mul taps x ((shift taps)^[n] unit) := by
  rw [← map_mul taps ((linear_shift taps).iterate n) (Function.Commute.refl _ |>.iterate_left n),
    mul_unit]

/-- Go on with a register once it is computed; reduction would carry the term along. -/
def strictly {α : Type} (x : BitVec w) (next : BitVec w → α) : α :=
  match x.toNat with
  | 0 => next 0
  | n + 1 => next (BitVec.ofNat w (n + 1))

theorem strictly_eq {α : Type} (x : BitVec w) (next : BitVec w → α) :
    strictly x next = next x := by
  rw [strictly]
  split
  · rename_i hzero
    exact congrArg next (BitVec.eq_of_toNat_eq hzero.symm)
  · rename_i n hsucc
    apply congrArg next
    rw [← Nat.succ_eq_add_one, ← hsucc, BitVec.ofNat_toNat, BitVec.setWidth_eq]

/-- The power of a number of `bits` bits, by repeated squaring. -/
def power : ℕ → ℕ → BitVec w
  | 0, _ => unit
  | bits + 1, n =>
    strictly (power bits (n / 2)) fun half =>
      strictly (mul taps half half) fun square =>
        if n % 2 = 1 then shift taps square else square

theorem power_eq {bits n : ℕ} (small : n < 2 ^ bits) :
    power taps bits n = (shift taps)^[n] unit := by
  induction bits generalizing n with
  | zero =>
      obtain rfl : n = 0 := by omega
      rfl
  | succ bits ih =>
      have hhalf : n / 2 < 2 ^ bits := by omega
      have hsquare : mul taps (power taps bits (n / 2)) (power taps bits (n / 2)) =
          (shift taps)^[2 * (n / 2)] unit := by
        rw [ih hhalf, ← iterate_shift_eq_mul, ← Function.iterate_add_apply, two_mul]
      rw [power, strictly_eq, strictly_eq]
      split_ifs with hodd
      · rw [hsquare, ← Function.iterate_succ_apply' (shift taps)]
        congr 1
        omega
      · rw [hsquare]
        congr 1
        omega

/-- The registers other than zero recur after this number of shifts and not earlier. -/
structure Primitive (period : ℕ) : Prop where
  full : (shift taps)^[period] unit = unit
  /-- No proper divisor of the period will do, because the difference can be undone. -/
  proper : ∀ q, q.Prime → q ∣ period →
    ∃ y, mul taps y ((shift taps)^[period / q] unit ^^^ unit) = unit

variable {taps}

/-- A register recurs after the shifts of a difference that can be undone only if it is zero. -/
theorem eq_zero_of_iterate {n : ℕ} {x y : BitVec w}
    (undone : mul taps y ((shift taps)^[n] unit ^^^ unit) = unit)
    (recurs : (shift taps)^[n] x = x) : x = 0 := by
  have hproduct : mul taps x ((shift taps)^[n] unit ^^^ unit) = 0 := by
    rw [linear_mul, ← iterate_shift_eq_mul, recurs, mul_unit]
    exact BitVec.xor_self
  have hundo := map_mul taps (linear_mul taps y) (commute_mul taps y) x
    ((shift taps)^[n] unit ^^^ unit)
  rw [hproduct, undone, mul_unit, (linear_mul taps y).zero] at hundo
  exact hundo.symm

/-- After a number of shifts a register recurs if it is zero or the number is a multiple of the
period, and otherwise not. -/
theorem Primitive.iterate_shift_eq_self_iff {period : ℕ} (primitive : Primitive taps period)
    {n : ℕ} {x : BitVec w} :
    (shift taps)^[n] x = x ↔ x = 0 ∨ period ∣ n := by
  have hperiod : Function.IsPeriodicPt (shift taps) period x := by
    show (shift taps)^[period] x = x
    rw [iterate_shift_eq_mul, primitive.full, mul_unit]
  constructor
  · intro hrecurs
    by_contra hnot
    obtain ⟨hnonzero, hindivisible⟩ := not_or.mp hnot
    have hgcd : Function.IsPeriodicPt (shift taps) (period.gcd n) x := hperiod.gcd hrecurs
    -- the common period is a proper divisor, so one prime of the period is missing in it
    have hproper : period / period.gcd n ≠ 1 := by
      intro hone
      have hsame := Nat.div_mul_cancel (Nat.gcd_dvd_left period n)
      rw [hone, one_mul] at hsame
      exact hindivisible (hsame ▸ Nat.gcd_dvd_right period n)
    obtain ⟨q, hprime, hdivides⟩ := Nat.exists_prime_and_dvd hproper
    have hq : q ∣ period := hdivides.trans (Nat.div_dvd_of_dvd (Nat.gcd_dvd_left period n))
    have hshort : period.gcd n ∣ period / q := by
      obtain ⟨c, hc⟩ := hdivides
      have hwhole := Nat.div_mul_cancel (Nat.gcd_dvd_left period n)
      refine ⟨c, Nat.div_eq_of_eq_mul_right hprime.pos ?_⟩
      calc
        period = q * c * period.gcd n := by rw [← hc, hwhole]
        _ = q * (period.gcd n * c) := by ring
    obtain ⟨y, hundone⟩ := primitive.proper q hprime hq
    exact hnonzero (eq_zero_of_iterate hundone (hgcd.trans_dvd hshort))
  · rintro (rfl | hdivides)
    · exact ((linear_shift taps).iterate n).zero
    · exact hperiod.trans_dvd hdivides

end ShiftRegister
