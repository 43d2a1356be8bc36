/-
# Names in UTF-16 and UTF-8

The file system keeps a name as UTF-16 code units, a message carries it as UTF-8. Both conversions
are strict: text with an unpaired surrogate has no UTF-8 form, and malformed bytes have no decoding.
What was encoded is decoded to itself, and what can be decoded has the length of its encoding.
-/

import Sxaint.Core.Path

namespace Sxaint.Core

/-! ## UTF-16 -/

def isHighSurrogate (u : UInt16) : Bool :=
  0xD800 ≤ u.toNat && u.toNat < 0xDC00

def isLowSurrogate (u : UInt16) : Bool :=
  0xDC00 ≤ u.toNat && u.toNat < 0xE000

/-- Strict UTF-16 decoding. -/
def decodeUtf16 : List UInt16 → Option (List Char)
  | [] => some []
  | u :: rest =>
    if isHighSurrogate u then
      match rest with
      | [] => none
      | v :: rest =>
        if isLowSurrogate v then
          (decodeUtf16 rest).map
            (Char.ofNat (0x10000 + (u.toNat - 0xD800) * 1024 + (v.toNat - 0xDC00)) :: ·)
        else none
    else if isLowSurrogate u then none
    else (decodeUtf16 rest).map (Char.ofNat u.toNat :: ·)

/-- The code units of a character. -/
def utf16EncodeChar (c : Char) : List UInt16 :=
  if c.toNat < 0x10000 then [UInt16.ofNat c.toNat]
  else
    [UInt16.ofNat (0xD800 + (c.toNat - 0x10000) / 1024),
      UInt16.ofNat (0xDC00 + (c.toNat - 0x10000) % 1024)]

def encodeUtf16 (text : List Char) : List UInt16 :=
  text.flatMap utf16EncodeChar

theorem toNat_ofNat_of_valid {n : ℕ} (valid : n.isValidChar) : (Char.ofNat n).toNat = n := by
  rw [Char.ofNat, dif_pos valid]
  rfl

/-- Only the name itself decodes to a text. -/
theorem encodeUtf16_of_decodeUtf16 {name : List UInt16} {text : List Char}
    (decoded : decodeUtf16 name = some text) : encodeUtf16 text = name := by
  fun_induction decodeUtf16 name generalizing text with
  | case1 =>
      cases decoded
      rfl
  | case2 => cases decoded
  | case3 u hhigh v rest hlow ih =>
      obtain ⟨tail, htail, rfl⟩ := Option.map_eq_some_iff.mp decoded
      simp only [isHighSurrogate, isLowSurrogate, Bool.and_eq_true, decide_eq_true_eq]
        at hhigh hlow
      have hvalid : (0x10000 + (u.toNat - 0xD800) * 1024 + (v.toNat - 0xDC00)).isValidChar := by
        rw [Nat.isValidChar]
        omega
      rw [encodeUtf16, List.flatMap_cons, ← encodeUtf16, ih htail, utf16EncodeChar,
        toNat_ofNat_of_valid hvalid, if_neg (by omega)]
      have hfirst : 0xD800 + (0x10000 + (u.toNat - 0xD800) * 1024 + (v.toNat - 0xDC00) - 0x10000) /
          1024 = u.toNat := by omega
      have hsecond : 0xDC00 + (0x10000 + (u.toNat - 0xD800) * 1024 + (v.toNat - 0xDC00) -
          0x10000) % 1024 = v.toNat := by omega
      rw [hfirst, hsecond, UInt16.ofNat_toNat, UInt16.ofNat_toNat]
      rfl
  | case4 => cases decoded
  | case5 => cases decoded
  | case6 u rest hhigh hlow ih =>
      obtain ⟨tail, htail, rfl⟩ := Option.map_eq_some_iff.mp decoded
      have hbound := u.toNat_lt
      simp only [isHighSurrogate, isLowSurrogate, Bool.and_eq_true, decide_eq_true_eq]
        at hhigh hlow
      have hvalid : u.toNat.isValidChar := by
        rw [Nat.isValidChar]
        omega
      rw [encodeUtf16, List.flatMap_cons, ← encodeUtf16, ih htail, utf16EncodeChar,
        toNat_ofNat_of_valid hvalid, if_pos (by omega), UInt16.ofNat_toNat]
      rfl

theorem decodeUtf16_utf16EncodeChar (c : Char) (rest : List UInt16) :
    decodeUtf16 (utf16EncodeChar c ++ rest) = (decodeUtf16 rest).map (c :: ·) := by
  have hvalid := c.valid
  rw [UInt32.isValidChar, Nat.isValidChar] at hvalid
  change c.toNat < 0xD800 ∨ 0xDFFF < c.toNat ∧ c.toNat < 0x110000 at hvalid
  rw [utf16EncodeChar]
  split
  · have hunit : (UInt16.ofNat c.toNat).toNat = c.toNat := by
      rw [UInt16.toNat_ofNat']
      omega
    have hhigh : isHighSurrogate (UInt16.ofNat c.toNat) = false := by
      simp only [isHighSurrogate, hunit, Bool.and_eq_false_iff, decide_eq_false_iff_not]
      omega
    have hlow : isLowSurrogate (UInt16.ofNat c.toNat) = false := by
      simp only [isLowSurrogate, hunit, Bool.and_eq_false_iff, decide_eq_false_iff_not]
      omega
    rw [List.singleton_append, decodeUtf16.eq_def]
    simp only [hhigh, hlow, hunit, Bool.false_eq_true, if_false, Char.ofNat_toNat]
  · have hfirst : (UInt16.ofNat (0xD800 + (c.toNat - 0x10000) / 1024)).toNat =
        0xD800 + (c.toNat - 0x10000) / 1024 := by
      rw [UInt16.toNat_ofNat']
      omega
    have hsecond : (UInt16.ofNat (0xDC00 + (c.toNat - 0x10000) % 1024)).toNat =
        0xDC00 + (c.toNat - 0x10000) % 1024 := by
      rw [UInt16.toNat_ofNat']
      omega
    have hhigh : isHighSurrogate (UInt16.ofNat (0xD800 + (c.toNat - 0x10000) / 1024)) = true := by
      simp only [isHighSurrogate, hfirst, Bool.and_eq_true, decide_eq_true_eq]
      omega
    have hlow : isLowSurrogate (UInt16.ofNat (0xDC00 + (c.toNat - 0x10000) % 1024)) = true := by
      simp only [isLowSurrogate, hsecond, Bool.and_eq_true, decide_eq_true_eq]
      omega
    have hvalue : 0x10000 + (0xD800 + (c.toNat - 0x10000) / 1024 - 0xD800) * 1024 +
        (0xDC00 + (c.toNat - 0x10000) % 1024 - 0xDC00) = c.toNat := by omega
    rw [List.cons_append, List.singleton_append, decodeUtf16.eq_def]
    simp only [hhigh, hlow, hfirst, hsecond, hvalue, if_true, Char.ofNat_toNat]

@[simp]
theorem decodeUtf16_encodeUtf16 (text : List Char) :
    decodeUtf16 (encodeUtf16 text) = some text := by
  induction text with
  | nil => rfl
  | cons c text ih =>
      rw [encodeUtf16, List.flatMap_cons, decodeUtf16_utf16EncodeChar, ← encodeUtf16, ih,
        Option.map_some]

/-! ## UTF-8 -/

def encodeUtf8 (text : List Char) : List UInt8 :=
  text.flatMap String.utf8EncodeChar

theorem scalar_toNat {c : Char} {least : ℕ} (enough : least ≤ c.toNat) :
    scalar least c.toNat = some c := by
  rw [scalar, if_pos ⟨enough, c.valid⟩, Char.ofNat_toNat]

theorem continuation_ofNat {n : ℕ} :
    continuation (UInt8.ofNat (n % 0x40 + 0x80)) = some (n % 0x40) := by
  have hbyte : (UInt8.ofNat (n % 0x40 + 0x80)).toNat = n % 0x40 + 0x80 := by
    rw [UInt8.toNat_ofNat']
    omega
  rw [continuation, hbyte, if_pos (by omega), Nat.add_sub_cancel]

/-! A sequence is decoded by its first byte. -/

section Shapes

variable {a b d e : UInt8} (rest : List UInt8)

theorem decodeUtf8_one (small : a.toNat < 0x80) :
    decodeUtf8 (a :: rest) = (decodeUtf8 rest).map (Char.ofNat a.toNat :: ·) := by
  rw [decodeUtf8.eq_def]
  simp only [if_pos small]

theorem decodeUtf8_two (low : 0x80 ≤ a.toNat) (high : a.toNat < 0xE0) :
    decodeUtf8 (a :: b :: rest) =
      (continuation b).bind fun low =>
        (scalar 0x80 ((a.toNat - 0xC0) * 64 + low)).bind fun c =>
          (decodeUtf8 rest).map (c :: ·) := by
  rw [decodeUtf8.eq_def]
  simp only [if_neg (Nat.not_lt.mpr low), if_pos high]
  rfl

theorem decodeUtf8_three (low : 0xE0 ≤ a.toNat) (high : a.toNat < 0xF0) :
    decodeUtf8 (a :: b :: d :: rest) =
      (continuation b).bind fun mid => (continuation d).bind fun low =>
        (scalar 0x800 ((a.toNat - 0xE0) * 4096 + mid * 64 + low)).bind fun c =>
          (decodeUtf8 rest).map (c :: ·) := by
  rw [decodeUtf8.eq_def]
  simp only [if_neg (Nat.not_lt.mpr low), if_neg (show ¬ a.toNat < 0x80 by omega), if_pos high]
  rfl

theorem decodeUtf8_four (low : 0xF0 ≤ a.toNat) :
    decodeUtf8 (a :: b :: d :: e :: rest) =
      (continuation b).bind fun high => (continuation d).bind fun mid =>
        (continuation e).bind fun low =>
          (scalar 0x10000 ((a.toNat - 0xF0) * 262144 + high * 4096 + mid * 64 + low)).bind
            fun c => (decodeUtf8 rest).map (c :: ·) := by
  rw [decodeUtf8.eq_def]
  simp only [if_neg (Nat.not_lt.mpr low), if_neg (show ¬ a.toNat < 0x80 by omega),
    if_neg (show ¬ a.toNat < 0xE0 by omega)]
  rfl

end Shapes

theorem decodeUtf8_utf8EncodeChar (c : Char) (rest : List UInt8) :
    decodeUtf8 (String.utf8EncodeChar c ++ rest) = (decodeUtf8 rest).map (c :: ·) := by
  have hmax : c.toNat < 0x110000 := by
    have hvalid := c.valid
    rw [UInt32.isValidChar, Nat.isValidChar] at hvalid
    show c.val.toNat < _
    omega
  have hval : c.val.toNat = c.toNat := rfl
  rw [String.utf8EncodeChar, hval]
  split_ifs with hone htwo hthree
  · have hfirst : (UInt8.ofNat c.toNat).toNat = c.toNat := by
      rw [UInt8.toNat_ofNat']
      omega
    rw [List.singleton_append, decodeUtf8_one rest (by omega), hfirst, Char.ofNat_toNat]
  · have hfirst : (UInt8.ofNat (c.toNat / 64 % 0x20 + 0xC0)).toNat = c.toNat / 64 + 0xC0 := by
      rw [UInt8.toNat_ofNat']
      omega
    have hvalue : c.toNat / 64 * 64 + c.toNat % 0x40 = c.toNat := by omega
    rw [List.cons_append, List.singleton_append, decodeUtf8_two rest (by omega) (by omega),
      continuation_ofNat, Option.bind_some, hfirst, Nat.add_sub_cancel, hvalue,
      scalar_toNat (by omega), Option.bind_some]
  · have hfirst : (UInt8.ofNat (c.toNat / 4096 % 0x10 + 0xE0)).toNat = c.toNat / 4096 + 0xE0 := by
      rw [UInt8.toNat_ofNat']
      omega
    have hvalue : c.toNat / 4096 * 4096 + c.toNat / 64 % 0x40 * 64 + c.toNat % 0x40 =
        c.toNat := by omega
    rw [List.cons_append, List.cons_append, List.singleton_append,
      decodeUtf8_three rest (by omega) (by omega), continuation_ofNat, Option.bind_some,
      continuation_ofNat, Option.bind_some, hfirst, Nat.add_sub_cancel, hvalue,
      scalar_toNat (by omega), Option.bind_some]
  · have hfirst : (UInt8.ofNat (c.toNat / 262144 % 0x08 + 0xF0)).toNat =
        c.toNat / 262144 + 0xF0 := by
      rw [UInt8.toNat_ofNat']
      omega
    have hvalue : c.toNat / 262144 * 262144 + c.toNat / 4096 % 0x40 * 4096 +
        c.toNat / 64 % 0x40 * 64 + c.toNat % 0x40 = c.toNat := by omega
    rw [List.cons_append, List.cons_append, List.cons_append, List.singleton_append,
      decodeUtf8_four rest (by omega), continuation_ofNat, Option.bind_some, continuation_ofNat,
      Option.bind_some, continuation_ofNat, Option.bind_some, hfirst, Nat.add_sub_cancel, hvalue,
      scalar_toNat (by omega), Option.bind_some]

/-- Decoding what was encoded gives the text back. -/
@[simp]
theorem decodeUtf8_encodeUtf8 (text : List Char) : decodeUtf8 (encodeUtf8 text) = some text := by
  induction text with
  | nil => rfl
  | cons c text ih =>
      rw [encodeUtf8, List.flatMap_cons, decodeUtf8_utf8EncodeChar, ← encodeUtf8, ih,
        Option.map_some]

theorem toNat_of_scalar {least value : ℕ} {c : Char} (found : scalar least value = some c) :
    c.toNat = value ∧ least ≤ value := by
  rw [scalar] at found
  split_ifs at found with hvalid
  cases found
  exact ⟨toNat_ofNat_of_valid hvalid.2, hvalid.1⟩

theorem lt_of_continuation {byte : UInt8} {n : ℕ} (found : continuation byte = some n) :
    n < 0x40 := by
  rw [continuation] at found
  split at found
  · have hbyte := Option.some.inj found
    omega
  · cases found

theorem length_utf8EncodeChar (c : Char) :
    (String.utf8EncodeChar c).length =
      if c.toNat < 0x80 then 1 else if c.toNat < 0x800 then 2 else if c.toNat < 0x10000 then 3
      else 4 := by
  have hval : c.val.toNat = c.toNat := rfl
  rw [String.utf8EncodeChar, hval]
  grind

/-- One more character and its bytes. -/
theorem length_cons_of_decodeUtf8 {bytes rest : List UInt8} {c : Char} {text : List Char}
    (char : (String.utf8EncodeChar c).length + rest.length = bytes.length)
    (ih : ∀ {text}, decodeUtf8 rest = some text → (encodeUtf8 text).length = rest.length)
    (decoded : (decodeUtf8 rest).map (c :: ·) = some text) :
    (encodeUtf8 text).length = bytes.length := by
  obtain ⟨tail, htail, rfl⟩ := Option.map_eq_some_iff.mp decoded
  rw [encodeUtf8, List.flatMap_cons, List.length_append, ← encodeUtf8, ih htail, char]

/-- Strict decoding takes in no more and no fewer bytes than the text is encoded in. -/
theorem length_of_decodeUtf8 {bytes : List UInt8} {text : List Char}
    (decoded : decodeUtf8 bytes = some text) : (encodeUtf8 text).length = bytes.length := by
  fun_induction decodeUtf8 bytes generalizing text with
  | case1 =>
      cases decoded
      rfl
  | case2 a rest hone ih =>
      refine length_cons_of_decodeUtf8 ?_ ih decoded
      have hvalid : a.toNat.isValidChar := .inl (by omega)
      rw [length_utf8EncodeChar, toNat_ofNat_of_valid hvalid, if_pos hone, List.length_cons,
        Nat.add_comm]
  | case4 a hone b rest htwo ih =>
      obtain ⟨low, hlow, decoded⟩ := Option.bind_eq_some_iff.mp decoded
      obtain ⟨c, hc, decoded⟩ := Option.bind_eq_some_iff.mp decoded
      have hlow' := lt_of_continuation hlow
      obtain ⟨hvalue, hleast⟩ := toNat_of_scalar hc
      refine length_cons_of_decodeUtf8 ?_ ih decoded
      rw [length_utf8EncodeChar, if_neg (by omega), if_pos (by omega)]
      simp only [List.length_cons]
      omega
  | case6 a hone b htwo d rest hthree ih =>
      obtain ⟨mid, hmid, decoded⟩ := Option.bind_eq_some_iff.mp decoded
      obtain ⟨low, hlow, decoded⟩ := Option.bind_eq_some_iff.mp decoded
      obtain ⟨c, hc, decoded⟩ := Option.bind_eq_some_iff.mp decoded
      have hmid' := lt_of_continuation hmid
      have hlow' := lt_of_continuation hlow
      obtain ⟨hvalue, hleast⟩ := toNat_of_scalar hc
      refine length_cons_of_decodeUtf8 ?_ ih decoded
      rw [length_utf8EncodeChar, if_neg (by omega), if_neg (by omega), if_pos (by omega)]
      simp only [List.length_cons]
      omega
  | case8 a hone b htwo d hthree e rest ih =>
      obtain ⟨high, -, decoded⟩ := Option.bind_eq_some_iff.mp decoded
      obtain ⟨mid, -, decoded⟩ := Option.bind_eq_some_iff.mp decoded
      obtain ⟨low, -, decoded⟩ := Option.bind_eq_some_iff.mp decoded
      obtain ⟨c, hc, decoded⟩ := Option.bind_eq_some_iff.mp decoded
      obtain ⟨hvalue, hleast⟩ := toNat_of_scalar hc
      refine length_cons_of_decodeUtf8 ?_ ih decoded
      rw [length_utf8EncodeChar, if_neg (by omega), if_neg (by omega), if_neg (by omega)]
      simp only [List.length_cons]
      omega
  | case3 | case5 | case7 => cases decoded

theorem continuation_of_ascii {byte : UInt8} (ascii : byte.toNat < 0x80) :
    continuation byte = none :=
  if_neg fun h => Nat.not_lt.mpr h.1 ascii

section

variable {a b d delimiter : UInt8} (rest : List UInt8)

/-- No sequence goes on behind its first byte with a character of one byte. -/
theorem decodeUtf8_cut_one (lead : ¬ a.toNat < 0x80) (ascii : delimiter.toNat < 0x80) :
    decodeUtf8 (a :: delimiter :: rest) = none := by
  have hnone := continuation_of_ascii ascii
  rw [decodeUtf8.eq_def]
  simp only [if_neg lead, hnone, Option.bind_eq_bind, Option.bind_none]
  split
  · rfl
  · rcases rest with _ | ⟨d, _ | ⟨e, rest⟩⟩ <;> simp

theorem decodeUtf8_cut_two (lead : ¬ a.toNat < 0xE0) (ascii : delimiter.toNat < 0x80) :
    decodeUtf8 (a :: b :: delimiter :: rest) = none := by
  have hnone := continuation_of_ascii ascii
  rw [decodeUtf8.eq_def]
  simp only [if_neg (show ¬ a.toNat < 0x80 by omega), if_neg lead, hnone, Option.bind_eq_bind,
    Option.bind_none, Option.bind_fun_none]
  split
  · rfl
  · rcases rest with _ | ⟨e, rest⟩ <;> simp

theorem decodeUtf8_cut_three (lead : ¬ a.toNat < 0xF0) (ascii : delimiter.toNat < 0x80) :
    decodeUtf8 (a :: b :: d :: delimiter :: rest) = none := by
  have hnone := continuation_of_ascii ascii
  rw [decodeUtf8_four rest (by omega), hnone]
  simp

end

/-- A text that is cut at a character of one byte is cut into texts. -/
theorem decodes_of_separated {front back : List UInt8} {delimiter : UInt8}
    (ascii : delimiter.toNat < 0x80)
    (decodes : (decodeUtf8 (front ++ delimiter :: back)).isSome = true) :
    (decodeUtf8 front).isSome = true ∧ (decodeUtf8 back).isSome = true := by
  fun_induction decodeUtf8 front with
  | case1 =>
      rw [List.nil_append, decodeUtf8_one back ascii, Option.isSome_map] at decodes
      exact ⟨rfl, decodes⟩
  | case2 a rest hone ih =>
      rw [List.cons_append, decodeUtf8_one _ hone, Option.isSome_map] at decodes
      rw [Option.isSome_map]
      exact ih decodes
  | case3 a hone =>
      rw [List.singleton_append, decodeUtf8_cut_one _ hone ascii] at decodes
      cases decodes
  | case4 a hone b rest htwo ih =>
      rw [List.cons_append, List.cons_append, decodeUtf8_two _ (by omega) htwo] at decodes
      simp only [Option.isSome_bind, Option.any_eq_true, Option.isSome_map, Option.bind_eq_bind]
        at decodes ⊢
      obtain ⟨low, hlow, c, hc, hrest⟩ := decodes
      obtain ⟨hfront, hback⟩ := ih hrest
      exact ⟨⟨low, hlow, c, hc, hfront⟩, hback⟩
  | case5 a hone b htwo =>
      rw [List.cons_append, List.singleton_append, decodeUtf8_cut_two _ htwo ascii] at decodes
      cases decodes
  | case6 a hone b htwo d rest hthree ih =>
      rw [List.cons_append, List.cons_append, List.cons_append,
        decodeUtf8_three _ (by omega) hthree] at decodes
      simp only [Option.isSome_bind, Option.any_eq_true, Option.isSome_map, Option.bind_eq_bind]
        at decodes ⊢
      obtain ⟨mid, hmid, low, hlow, c, hc, hrest⟩ := decodes
      obtain ⟨hfront, hback⟩ := ih hrest
      exact ⟨⟨mid, hmid, low, hlow, c, hc, hfront⟩, hback⟩
  | case7 a hone b htwo d hthree =>
      rw [List.cons_append, List.cons_append, List.singleton_append,
        decodeUtf8_cut_three _ hthree ascii] at decodes
      cases decodes
  | case8 a hone b htwo d hthree e rest ih =>
      rw [List.cons_append, List.cons_append, List.cons_append, List.cons_append,
        decodeUtf8_four _ (by omega)] at decodes
      simp only [Option.isSome_bind, Option.any_eq_true, Option.isSome_map, Option.bind_eq_bind]
        at decodes ⊢
      obtain ⟨high, hhigh, mid, hmid, low, hlow, c, hc, hrest⟩ := decodes
      obtain ⟨hfront, hback⟩ := ih hrest
      exact ⟨⟨high, hhigh, mid, hmid, low, hlow, c, hc, hfront⟩, hback⟩

/-- Only a zero character has a zero byte in its encoding. -/
theorem zero_not_mem_encodeUtf8 {text : List Char} (noZero : ∀ c ∈ text, c.toNat ≠ 0) :
    0 ∉ encodeUtf8 text := by
  intro hmem
  obtain ⟨c, hc, hbyte⟩ := List.mem_flatMap.mp hmem
  have hpositive := noZero c hc
  have hval : c.val.toNat = c.toNat := rfl
  have hbytes : ∀ b ∈ String.utf8EncodeChar c, 0 < b.toNat := by
    intro b hb
    rw [String.utf8EncodeChar, hval] at hb
    split at hb
    · obtain rfl := List.mem_singleton.mp hb
      rw [UInt8.toNat_ofNat']
      omega
    · split at hb
      · obtain rfl | rfl := List.mem_pair.mp hb <;> rw [UInt8.toNat_ofNat'] <;> omega
      · split at hb <;> simp only [List.mem_cons, List.not_mem_nil, or_false] at hb
        · rcases hb with rfl | rfl | rfl <;> rw [UInt8.toNat_ofNat'] <;> omega
        · rcases hb with rfl | rfl | rfl | rfl <;> rw [UInt8.toNat_ofNat'] <;> omega
  exact Nat.lt_irrefl 0 (hbytes 0 hbyte)

end Sxaint.Core
