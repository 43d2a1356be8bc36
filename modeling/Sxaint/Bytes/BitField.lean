/-
# Bits packed into bytes

A bit field keeps bit `i` in byte `i / 8` at position `i % 8`, least significant
bit first. Reading and setting a bit index the byte list, so both are partial:
a bit whose byte is missing has no value and cannot be set. The two loops of a
codec, writing chosen bits into a field and reading a prefix of one, are
characterized by the bits they leave behind.
-/

import Mathlib.Data.List.Basic
import Mathlib.Data.Nat.Bitwise

namespace BitField

/-- The bit of a field, with missing bytes read as zero. -/
def testBit (packed : List UInt8) (i : ℕ) : Bool :=
  (packed.getD (i / 8) 0).toNat.testBit (i % 8)

/-- Read one bit by masking its byte; there is none if the byte is missing. -/
def readBit (packed : List UInt8) (i : ℕ) : Option Bool :=
  (packed[i / 8]?).map fun byte => (byte.toNat &&& (1 <<< (i % 8))) != 0

/-- Set one bit by masking it into its byte; impossible if the byte is missing. -/
def setBit (packed : List UInt8) (i : ℕ) : Option (List UInt8) :=
  (packed[i / 8]?).map fun byte =>
    packed.set (i / 8) (byte ||| UInt8.ofNat (1 <<< (i % 8)))

/-- Read a bit from each index in turn. -/
def readBits (packed : List UInt8) : List ℕ → Option (List Bool)
  | [] => some []
  | i :: rest => do
    let bit ← readBit packed i
    let bits ← readBits packed rest
    return bit :: bits

/-- Set the bit at each index whose source bit is true. A source that has no bit
for an index stops the loop, as an index beyond the field does. -/
def writeBits (source : ℕ → Option Bool) : List ℕ → List UInt8 → Option (List UInt8)
  | [], packed => some packed
  | i :: rest, packed =>
    match source i with
    | none => none
    | some false => writeBits source rest packed
    | some true => (setBit packed i).bind (writeBits source rest)

/-- The bytes that the reading loop looks at, in order. -/
def bytesRead (indices : List ℕ) : List ℕ :=
  indices.map (· / 8)

/-- The bytes that the writing loop sets a bit in, in order. -/
def bytesWritten (source : ℕ → Option Bool) (indices : List ℕ) : List ℕ :=
  (indices.filter fun i => source i = some true).map (· / 8)

/-- The bits of a field from an index on are zero. -/
def ZeroFrom (count : ℕ) (packed : List UInt8) : Prop :=
  ∀ i, count ≤ i → i < 8 * packed.length → testBit packed i = false

instance (count : ℕ) (packed : List UInt8) : Decidable (ZeroFrom count packed) :=
  decidable_of_iff (∀ i < 8 * packed.length, count ≤ i → testBit packed i = false)
    ⟨fun h i hle hlt => h i hlt hle, fun h i hlt hle => h i hle hlt⟩

theorem readBit_eq_some {packed : List UInt8} {i : ℕ} (inside : i / 8 < packed.length) :
    readBit packed i = some (testBit packed i) := by
  have hmask (n k : ℕ) : ((n &&& (1 <<< k)) != 0) = n.testBit k := by
    rw [Nat.shiftLeft_eq, one_mul, Nat.and_two_pow]
    cases n.testBit k <;> simp
  rw [readBit, List.getElem?_eq_getElem inside, Option.map_some, hmask, testBit,
    List.getD_eq_getElem _ _ inside]

theorem readBit_eq_none {packed : List UInt8} {i : ℕ} (outside : packed.length ≤ i / 8) :
    readBit packed i = none := by
  rw [readBit, List.getElem?_eq_none outside, Option.map_none]

/-- Reading succeeds exactly when every index has its byte, and then gives the
bits of the field. -/
theorem readBits_eq_some {packed : List UInt8} {indices : List ℕ}
    (inside : ∀ i ∈ indices, i / 8 < packed.length) :
    readBits packed indices = some (indices.map (testBit packed)) := by
  induction indices with
  | nil => rfl
  | cons i rest ih =>
      have hrest := ih fun j hj => inside j (List.mem_cons_of_mem _ hj)
      simp [readBits, readBit_eq_some (inside i List.mem_cons_self), hrest]

theorem inside_of_readBits {packed : List UInt8} {indices : List ℕ} {bits : List Bool}
    (read : readBits packed indices = some bits) :
    ∀ i ∈ indices, i / 8 < packed.length := by
  induction indices generalizing bits with
  | nil => simp
  | cons i rest ih =>
      simp only [readBits, Option.bind_eq_bind, Option.bind_eq_some_iff] at read
      obtain ⟨bit, hbit, bits, hbits, -⟩ := read
      have hi : i / 8 < packed.length := by
        by_contra houtside
        rw [readBit_eq_none (by omega)] at hbit
        cases hbit
      simpa [hi] using ih hbits

/-- The reading loop succeeds exactly if it looks at no byte behind the field. -/
theorem readBits_isSome_iff {packed : List UInt8} {indices : List ℕ} :
    (readBits packed indices).isSome ↔ ∀ byte ∈ bytesRead indices, byte < packed.length := by
  rw [bytesRead, List.forall_mem_map]
  constructor
  · intro hread
    obtain ⟨bits, hbits⟩ := Option.isSome_iff_exists.mp hread
    exact inside_of_readBits hbits
  · intro hinside
    rw [readBits_eq_some hinside]
    rfl

theorem setBit_isSome_iff {packed : List UInt8} {i : ℕ} :
    (setBit packed i).isSome ↔ i / 8 < packed.length := by
  simp [setBit]

theorem length_of_setBit {packed result : List UInt8} {i : ℕ}
    (written : setBit packed i = some result) : result.length = packed.length := by
  obtain ⟨byte, -, rfl⟩ := Option.map_eq_some_iff.mp written
  simp

/-- Setting a bit changes that bit only. -/
theorem testBit_of_setBit {packed result : List UInt8} {i : ℕ}
    (written : setBit packed i = some result) (j : ℕ) :
    testBit result j = (decide (j = i) || testBit packed j) := by
  obtain ⟨byte, hbyte, rfl⟩ := Option.map_eq_some_iff.mp written
  obtain ⟨hinside, rfl⟩ := List.getElem?_eq_some_iff.mp hbyte
  have hmask (k : ℕ) : k < 8 → (UInt8.ofNat (1 <<< k)).toNat = 2 ^ k := by
    intro hk
    have : 2 ^ k < 2 ^ 8 := Nat.pow_lt_pow_right (by decide) hk
    simp [Nat.shiftLeft_eq]
    omega
  by_cases hsame : j / 8 = i / 8
  · have hpos : (j % 8 = i % 8) ↔ j = i := by omega
    simp only [testBit, hsame, List.getD_eq_getElem?_getD,
      List.getElem?_set_self hinside, List.getElem?_eq_getElem hinside, Option.getD_some,
      UInt8.toNat_or, Nat.testBit_lor, hmask _ (Nat.mod_lt i (by decide)),
      Nat.testBit_two_pow]
    rw [Bool.or_comm]
    congr 1
    simp only [decide_eq_decide]
    omega
  · have hne : j ≠ i := by
      rintro rfl
      exact hsame rfl
    simp only [testBit, List.getD_eq_getElem?_getD, List.getElem?_set_ne (Ne.symm hsame)]
    simp [hne]

theorem length_of_writeBits {source : ℕ → Option Bool} {indices : List ℕ}
    {packed result : List UInt8} (written : writeBits source indices packed = some result) :
    result.length = packed.length := by
  induction indices generalizing packed with
  | nil =>
      obtain rfl : packed = result := by simpa [writeBits] using written
      rfl
  | cons i rest ih =>
      rw [writeBits] at written
      split at written
      · cases written
      · exact ih written
      · obtain ⟨next, hset, hrest⟩ := Option.bind_eq_some_iff.mp written
        exact (ih hrest).trans (length_of_setBit hset)

/-- The writing loop succeeds when the source has every bit asked for and every
set bit has its byte. -/
theorem writeBits_isSome {source : ℕ → Option Bool} {indices : List ℕ}
    {packed : List UInt8} (total : ∀ i ∈ indices, (source i).isSome)
    (inside : ∀ i ∈ indices, source i = some true → i / 8 < packed.length) :
    (writeBits source indices packed).isSome := by
  induction indices generalizing packed with
  | nil => rfl
  | cons i rest ih =>
      have htotal := fun j hj => total j (List.mem_cons_of_mem i hj)
      obtain ⟨bit, hbit⟩ := Option.isSome_iff_exists.mp (total i List.mem_cons_self)
      rw [writeBits, hbit]
      cases bit with
      | false => exact ih htotal fun j hj => inside j (List.mem_cons_of_mem _ hj)
      | true =>
          obtain ⟨next, hset⟩ := Option.isSome_iff_exists.mp
            (setBit_isSome_iff.mpr (inside i List.mem_cons_self hbit))
          rw [hset]
          refine ih htotal fun j hj htrue => ?_
          rw [length_of_setBit hset]
          exact inside j (List.mem_cons_of_mem _ hj) htrue

/-- After the writing loop a bit is set if it was, or if its index was visited
with a true source bit. -/
theorem testBit_of_writeBits {source : ℕ → Option Bool} {indices : List ℕ}
    {packed result : List UInt8} (written : writeBits source indices packed = some result)
    (j : ℕ) :
    testBit result j = (testBit packed j || decide (j ∈ indices ∧ source j = some true)) := by
  induction indices generalizing packed with
  | nil =>
      obtain rfl : packed = result := by simpa [writeBits] using written
      simp
  | cons i rest ih =>
      rw [writeBits] at written
      split at written
      · cases written
      · rename_i hfalse
        rw [ih written]
        by_cases hj : j = i
        · subst hj
          simp [hfalse]
        · simp [hj]
      · rename_i htrue
        obtain ⟨next, hset, hrest⟩ := Option.bind_eq_some_iff.mp written
        rw [ih hrest, testBit_of_setBit hset]
        by_cases hj : j = i
        · subst hj
          simp [htrue]
        · simp [hj]

/-- A loop that succeeds had a source bit for every index it visited. -/
theorem source_of_writeBits {source : ℕ → Option Bool} {indices : List ℕ}
    {packed result : List UInt8} (written : writeBits source indices packed = some result) :
    ∀ i ∈ indices, (source i).isSome := by
  induction indices generalizing packed with
  | nil => simp
  | cons i rest ih =>
      rw [writeBits] at written
      split at written
      · cases written
      · rename_i hfalse
        simpa [hfalse] using ih written
      · rename_i htrue
        obtain ⟨next, -, hrest⟩ := Option.bind_eq_some_iff.mp written
        simpa [htrue] using ih hrest

/-- A loop that succeeds has set bits inside the field only. -/
theorem inside_of_writeBits {source : ℕ → Option Bool} {indices : List ℕ}
    {packed result : List UInt8} (written : writeBits source indices packed = some result) :
    ∀ i ∈ indices, source i = some true → i / 8 < packed.length := by
  induction indices generalizing packed with
  | nil => simp
  | cons i rest ih =>
      rw [writeBits] at written
      split at written
      · cases written
      · rename_i hfalse
        simpa [hfalse] using ih written
      · rename_i htrue
        obtain ⟨next, hset, hrest⟩ := Option.bind_eq_some_iff.mp written
        have hi : i / 8 < packed.length := setBit_isSome_iff.mp (by rw [hset]; rfl)
        have hlater := ih hrest
        rw [length_of_setBit hset] at hlater
        simpa [hi] using hlater

/-- Over a source that has every bit asked for, the writing loop succeeds exactly if it sets a bit
in no byte behind the field. -/
theorem writeBits_isSome_iff {source : ℕ → Option Bool} {indices : List ℕ}
    {packed : List UInt8} (total : ∀ i ∈ indices, (source i).isSome) :
    (writeBits source indices packed).isSome ↔
      ∀ byte ∈ bytesWritten source indices, byte < packed.length := by
  simp only [bytesWritten, List.forall_mem_map, List.mem_filter, decide_eq_true_eq, and_imp]
  constructor
  · intro hwritten
    obtain ⟨result, hresult⟩ := Option.isSome_iff_exists.mp hwritten
    exact inside_of_writeBits hresult
  · exact writeBits_isSome total

/-- A byte is determined by its bits. -/
theorem byte_eq_of_testBit {a b : UInt8}
    (same : ∀ k < 8, a.toNat.testBit k = b.toNat.testBit k) : a = b := by
  apply UInt8.toNat_inj.mp
  apply Nat.eq_of_testBit_eq
  intro k
  by_cases hk : k < 8
  · exact same k hk
  · have hpow : 2 ^ 8 ≤ 2 ^ k := Nat.pow_le_pow_right (by decide) (Nat.le_of_not_lt hk)
    have ha := a.toNat_lt
    have hb := b.toNat_lt
    rw [Nat.testBit_lt_two_pow (by omega), Nat.testBit_lt_two_pow (by omega)]

/-- A field is determined by its length and its bits. -/
theorem eq_of_testBit {first second : List UInt8} (length : first.length = second.length)
    (same : ∀ i < 8 * first.length, testBit first i = testBit second i) : first = second := by
  apply List.ext_getElem length
  intro j hfirst hsecond
  apply byte_eq_of_testBit
  intro k hk
  have hbit := same (8 * j + k) (by omega)
  have hbyte : (8 * j + k) / 8 = j := by omega
  have hplace : (8 * j + k) % 8 = k := by omega
  rw [testBit, testBit, hbyte, hplace, List.getD_eq_getElem _ _ hfirst,
    List.getD_eq_getElem _ _ hsecond] at hbit
  exact hbit

@[simp]
theorem testBit_replicate_zero (n j : ℕ) : testBit (List.replicate n 0) j = false := by
  have hbyte : (List.replicate n (0 : UInt8)).getD (j / 8) 0 = 0 := by
    rw [List.getD_eq_getElem?_getD, List.getElem?_replicate]
    split <;> rfl
  rw [testBit, hbyte]
  simp

/-- Every list of bits is read from some bytes. -/
theorem exists_readBits (bits : List Bool) :
    ∃ packed, readBits packed (List.range bits.length) = some bits := by
  have htotal : ∀ i ∈ List.range bits.length, (bits[i]?).isSome := by simp
  have hinside : ∀ i ∈ List.range bits.length,
      i / 8 < (List.replicate bits.length (0 : UInt8)).length := by
    intro i hi
    rw [List.length_replicate]
    exact (Nat.div_le_self i 8).trans_lt (List.mem_range.mp hi)
  obtain ⟨packed, hpacked⟩ := Option.isSome_iff_exists.mp
    (writeBits_isSome htotal fun i hi _ => hinside i hi)
  rw [← length_of_writeBits hpacked] at hinside
  refine ⟨packed, ?_⟩
  rw [readBits_eq_some hinside]
  congr 1
  apply List.ext_getElem (by simp)
  intro i hi hbit
  rw [List.getElem_map, List.getElem_range, testBit_of_writeBits hpacked]
  simp [hbit]

end BitField
