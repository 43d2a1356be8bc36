/-
# Records with a type and a length

A record is a type and a length of two bytes each, the most significant first, and a value of that
length. Where records are laid end to end, each length leads to the next record. The records of a
padded format start at multiples of four bytes, so a walk over them that leaves the padding out
gets into the padding of the first record whose length is no such multiple.
-/

import Mathlib.Algebra.Ring.Nat
import Mathlib.Data.List.Basic

namespace Records

/-- Two bytes, the most significant first. -/
def word (high low : UInt8) : UInt16 :=
  high.toUInt16 <<< 8 ||| low.toUInt16

/-- Four bytes, the most significant first. -/
def doubleWord (a b c d : UInt8) : UInt32 :=
  a.toUInt32 <<< 24 ||| b.toUInt32 <<< 16 ||| c.toUInt32 <<< 8 ||| d.toUInt32

def wordBytes (value : UInt16) : List UInt8 :=
  [(value >>> 8).toUInt8, value.toUInt8]

def doubleWordBytes (value : UInt32) : List UInt8 :=
  [(value >>> 24).toUInt8, (value >>> 16).toUInt8, (value >>> 8).toUInt8, value.toUInt8]

/-- Bits below those of a shifted number are added to it. -/
theorem or_of_lt (high : ℕ) {low i : ℕ} (fits : low < 2 ^ i) :
    high * 2 ^ i ||| low = high * 2 ^ i + low := by
  rw [Nat.mul_comm, Nat.two_pow_add_eq_or_of_lt fits]

theorem toNat_word (high low : UInt8) :
    (word high low).toNat = high.toNat * 2 ^ 8 + low.toNat := by
  have hhigh := high.toNat_lt
  have hshift : high.toNat * 2 ^ 8 % 2 ^ 16 = high.toNat * 2 ^ 8 := Nat.mod_eq_of_lt (by omega)
  rw [← or_of_lt _ low.toNat_lt, ← hshift, ← Nat.shiftLeft_eq]
  rfl

theorem toNat_doubleWord (a b c d : UInt8) : (doubleWord a b c d).toNat =
    ((a.toNat * 2 ^ 8 + b.toNat) * 2 ^ 8 + c.toNat) * 2 ^ 8 + d.toNat := by
  have ha := a.toNat_lt
  have hb := b.toNat_lt
  have hc := c.toNat_lt
  have hfirst : a.toNat * 2 ^ 24 % 2 ^ 32 = a.toNat * 2 ^ 24 := Nat.mod_eq_of_lt (by omega)
  have hsecond : b.toNat * 2 ^ 16 % 2 ^ 32 = b.toNat * 2 ^ 16 := Nat.mod_eq_of_lt (by omega)
  have hthird : c.toNat * 2 ^ 8 % 2 ^ 32 = c.toNat * 2 ^ 8 := Nat.mod_eq_of_lt (by omega)
  have hshifts : (doubleWord a b c d).toNat =
      a.toNat * 2 ^ 24 ||| b.toNat * 2 ^ 16 ||| c.toNat * 2 ^ 8 ||| d.toNat := by
    rw [← hfirst, ← hsecond, ← hthird, ← Nat.shiftLeft_eq, ← Nat.shiftLeft_eq, ← Nat.shiftLeft_eq]
    rfl
  have htwo : a.toNat * 2 ^ 24 ||| b.toNat * 2 ^ 16 = (a.toNat * 2 ^ 8 + b.toNat) * 2 ^ 16 := by
    rw [or_of_lt a.toNat (by omega)]
    omega
  have hthree : (a.toNat * 2 ^ 8 + b.toNat) * 2 ^ 16 ||| c.toNat * 2 ^ 8 =
      ((a.toNat * 2 ^ 8 + b.toNat) * 2 ^ 8 + c.toNat) * 2 ^ 8 := by
    rw [or_of_lt _ (by omega)]
    omega
  calc
    _ = a.toNat * 2 ^ 24 ||| b.toNat * 2 ^ 16 ||| c.toNat * 2 ^ 8 ||| d.toNat := hshifts
    _ = (a.toNat * 2 ^ 8 + b.toNat) * 2 ^ 16 ||| c.toNat * 2 ^ 8 ||| d.toNat :=
      congrArg (fun high => high ||| c.toNat * 2 ^ 8 ||| d.toNat) htwo
    _ = ((a.toNat * 2 ^ 8 + b.toNat) * 2 ^ 8 + c.toNat) * 2 ^ 8 ||| d.toNat :=
      congrArg (· ||| d.toNat) hthree
    _ = _ := or_of_lt _ d.toNat_lt

@[simp] theorem word_wordBytes (value : UInt16) :
    word (value >>> 8).toUInt8 value.toUInt8 = value := by
  have hvalue := value.toNat_lt
  have hhigh : (value >>> 8).toUInt8.toNat = value.toNat / 2 ^ 8 % 2 ^ 8 := by
    rw [← Nat.shiftRight_eq_div_pow]
    rfl
  have hlow : value.toUInt8.toNat = value.toNat % 2 ^ 8 := rfl
  rw [← UInt16.toNat_inj, toNat_word, hhigh, hlow]
  omega

@[simp] theorem doubleWord_doubleWordBytes (value : UInt32) :
    doubleWord (value >>> 24).toUInt8 (value >>> 16).toUInt8 (value >>> 8).toUInt8 value.toUInt8 =
      value := by
  have hvalue := value.toNat_lt
  have hfirst : (value >>> 24).toUInt8.toNat = value.toNat / 2 ^ 24 % 2 ^ 8 := by
    rw [← Nat.shiftRight_eq_div_pow]
    rfl
  have hsecond : (value >>> 16).toUInt8.toNat = value.toNat / 2 ^ 16 % 2 ^ 8 := by
    rw [← Nat.shiftRight_eq_div_pow]
    rfl
  have hthird : (value >>> 8).toUInt8.toNat = value.toNat / 2 ^ 8 % 2 ^ 8 := by
    rw [← Nat.shiftRight_eq_div_pow]
    rfl
  have hfourth : value.toUInt8.toNat = value.toNat % 2 ^ 8 := rfl
  rw [← UInt32.toNat_inj, toNat_doubleWord, hfirst, hsecond, hthird, hfourth]
  omega

/-! ## Records end to end -/

section Walk

variable {stop : UInt16 → Prop}

/-- Records laid end to end lead from one rest of the bytes to another. A type at which the walk
stops is not passed. -/
inductive Reaches (stop : UInt16 → Prop) : List UInt8 → List UInt8 → Prop
  | here (bytes : List UInt8) : Reaches stop bytes bytes
  | past {t₁ t₀ l₁ l₀ : UInt8} {rest there : List UInt8} (other : ¬ stop (word t₁ t₀))
      (further : Reaches stop (rest.drop (word l₁ l₀).toNat) there) :
      Reaches stop (t₁ :: t₀ :: l₁ :: l₀ :: rest) there

theorem Reaches.eq_of_short {bytes there : List UInt8} (reaches : Reaches stop bytes there)
    (short : bytes.length < 4) : there = bytes := by
  cases reaches with
  | here => rfl
  | past _ _ =>
      simp only [List.length_cons] at short
      omega

theorem reaches_of_stop {t₁ t₀ l₁ l₀ : UInt8} {rest there : List UInt8}
    (stops : stop (word t₁ t₀)) :
    Reaches stop (t₁ :: t₀ :: l₁ :: l₀ :: rest) there ↔ there = t₁ :: t₀ :: l₁ :: l₀ :: rest := by
  constructor
  · intro reaches
    cases reaches with
    | here => rfl
    | past other _ => exact (other stops).elim
  · rintro rfl
    exact .here _

theorem reaches_of_other {t₁ t₀ l₁ l₀ : UInt8} {rest there : List UInt8}
    (other : ¬ stop (word t₁ t₀)) :
    Reaches stop (t₁ :: t₀ :: l₁ :: l₀ :: rest) there ↔
      there = t₁ :: t₀ :: l₁ :: l₀ :: rest ∨
        Reaches stop (rest.drop (word l₁ l₀).toNat) there := by
  constructor
  · intro reaches
    cases reaches with
    | here => exact .inl rfl
    | past _ further => exact .inr further
  · rintro (rfl | further)
    · exact .here _
    · exact .past other further

end Walk

end Records

/-! ## Padded records -/

/-- A record in a format that pads values to multiples of four bytes. -/
structure PaddedRecord where
  type : UInt16
  value : List UInt8
  padding : List UInt8
  fits : value.length < 2 ^ 16
  padded : (value.length + padding.length) % 4 = 0
  short : padding.length < 4

namespace PaddedRecord

open Records

def encode (record : PaddedRecord) : List UInt8 :=
  wordBytes record.type ++ wordBytes (UInt16.ofNat record.value.length) ++
    (record.value ++ record.padding)

def encodeAll (records : List PaddedRecord) : List UInt8 :=
  records.flatMap encode

theorem encode_append (record : PaddedRecord) (rest : List UInt8) :
    record.encode ++ rest =
      (record.type >>> 8).toUInt8 :: record.type.toUInt8 ::
        (UInt16.ofNat record.value.length >>> 8).toUInt8 ::
          (UInt16.ofNat record.value.length).toUInt8 ::
            (record.value ++ (record.padding ++ rest)) := by
  simp [encode, wordBytes]

theorem padding_eq_nil_iff (record : PaddedRecord) :
    record.padding = [] ↔ record.value.length % 4 = 0 := by
  have hpadded := record.padded
  have hshort := record.short
  rw [← List.length_eq_zero_iff]
  omega

end PaddedRecord
