/-
# The file name of a handshake

`sendFile` writes the name to its log in the code page of the system, and then copies the UTF-8
form of it into a field of 256 bytes, with the last one left zero; `processHandshake` reads the
field up to the first zero byte and decodes it. A name arrives if the code page has its characters
and its UTF-8 form has a place in the field; a longer one is cut.
-/

import Mathlib.Data.List.TakeWhile
import Sxaint.Core.Unicode
import Sxaint.Net.Send

namespace Sxaint.Net

open Sxaint.Core

/-- The units that the system keeps out of names: control characters and `"*/:<>?\|`. -/
def reservedUnit (u : UInt16) : Bool :=
  u.toNat < 32 || [0x22, 0x2A, 0x2F, 0x3A, 0x3C, 0x3E, 0x3F, 0x5C, 0x7C].contains u.toNat

/-- A file name that the system admits, as its UTF-16 code units. -/
structure Admitted (name : List UInt16) : Prop where
  nonempty : name ≠ []
  short : name.length ≤ 255
  plain : ∀ u ∈ name, reservedUnit u = false

/-- `filename().string()`; nothing if the conversion throws. -/
def narrowName (host : Host) (name : List UInt16) : Option (List UInt8) :=
  (decodeUtf16 name).bind host.toNarrow

/-- `filename().u8string()`; nothing if the conversion throws. -/
def u8Name (name : List UInt16) : Option (List UInt8) :=
  (decodeUtf16 name).map encodeUtf8

/-- The name that `sendFile` puts into the handshake. Before it comes to that it has converted the
name for its log. -/
def offeredName (host : Host) (name : List UInt16) : Option (List UInt8) := do
  let _ ← narrowName host name
  u8Name name

/-- The name that the receiver makes of the message that the sender makes, as code units again;
nothing if the name has no end in its field or the conversion throws. -/
def receivedName (args : SendArgs) : Option (List UInt16) :=
  (((Handshake.decode args.handshake.encode).fileNameText).bind decodeUtf8).map encodeUtf16

/-- The sender comes to its handshake, and whatever else is in it the receiver decodes the name. -/
def Arrives (host : Host) (name : List UInt16) : Prop :=
  ∃ bytes, offeredName host name = some bytes ∧
    ∀ args : SendArgs, args.fileName = bytes → receivedName args = some name

/-- A name that is offered has a form in the code page. -/
theorem offeredName_eq_some {host : Host} {name : List UInt16} {bytes : List UInt8}
    (offered : offeredName host name = some bytes) :
    ∃ text, decodeUtf16 name = some text ∧ (host.toNarrow text).isSome ∧
      encodeUtf8 text = bytes := by
  obtain ⟨narrow, hnarrow, hbytes⟩ := Option.bind_eq_some_iff.mp offered
  obtain ⟨text, htext, hform⟩ := Option.bind_eq_some_iff.mp hnarrow
  rw [u8Name, htext, Option.map_some, Option.some_inj] at hbytes
  exact ⟨text, htext, Option.isSome_iff_exists.mpr ⟨narrow, hform⟩, hbytes⟩

theorem offeredName_of_toNarrow {host : Host} {name : List UInt16} {text : List Char}
    (decoded : decodeUtf16 name = some text) (narrow : (host.toNarrow text).isSome) :
    offeredName host name = some (encodeUtf8 text) := by
  obtain ⟨form, hform⟩ := Option.isSome_iff_exists.mp narrow
  have hlogged : narrowName host name = some form := by
    rw [narrowName, decoded, Option.bind_some, hform]
  rw [offeredName, hlogged, u8Name, decoded]
  rfl

theorem noZero_of_admitted {name : List UInt16} {text : List Char} (admitted : Admitted name)
    (decoded : decodeUtf16 name = some text) : ∀ c ∈ text, c.toNat ≠ 0 := by
  intro c hc hzero
  have hunit : (0 : UInt16) ∈ name := by
    rw [← encodeUtf16_of_decodeUtf16 decoded]
    refine List.mem_flatMap.mpr ⟨c, hc, ?_⟩
    rw [utf16EncodeChar, hzero]
    exact List.mem_singleton_self _
  exact absurd (admitted.plain 0 hunit) (by decide)

/-- What fits in the field is what the receiver decodes. -/
theorem receivedName_eq {args : SendArgs} (noZero : 0 ∉ args.fileName) :
    receivedName args = (decodeUtf8 (args.fileName.take (fileNameSize - 1))).map encodeUtf16 := by
  have hdecode : Handshake.decode args.handshake.encode = args.handshake := by
    have hlength : args.handshake.fileName.length = fileNameSize := Handshake.length_nameField _
    simpa using Handshake.decode_encode hlength []
  have hall : ∀ b ∈ args.fileName, (b != 0) = true := by
    intro b hb
    simpa using fun h : b = 0 => noZero (h ▸ hb)
  have hkept : args.fileName.takeWhile (· != 0) = args.fileName :=
    List.takeWhile_eq_self_iff.mpr hall
  have hzeros (n : ℕ) : (List.replicate n (0 : UInt8)).takeWhile (· != 0) = [] := by
    cases n <;> rfl
  have htext : args.handshake.fileNameText = some (args.fileName.take (fileNameSize - 1)) := by
    have hfield : args.handshake.fileName = Handshake.nameField args.fileName := rfl
    rw [Handshake.fileNameText, hfield, if_pos (Handshake.zero_mem_nameField _), Option.some_inj]
    simp only [Handshake.nameField, hkept]
    rw [List.takeWhile_append_of_pos fun b hb => hall b (List.mem_of_mem_take hb), hzeros,
      List.append_nil]
  rw [receivedName, hdecode, htext, Option.bind_some]

/-- A name arrives exactly if it has a form in the code page of the sender and its UTF-8 form is no
longer than 255 bytes. -/
theorem arrives_iff {host : Host} {name : List UInt16} (admitted : Admitted name) :
    Arrives host name ↔ ∃ text, decodeUtf16 name = some text ∧ (host.toNarrow text).isSome ∧
      (encodeUtf8 text).length ≤ 255 := by
  have hzero {text : List Char} (decoded : decodeUtf16 name = some text) : 0 ∉ encodeUtf8 text :=
    zero_not_mem_encodeUtf8 (noZero_of_admitted admitted decoded)
  constructor
  · rintro ⟨bytes, hsent, harrives⟩
    obtain ⟨text, htext, hnarrow, rfl⟩ := offeredName_eq_some hsent
    refine ⟨text, htext, hnarrow, ?_⟩
    have hreceived := harrives ⟨0, encodeUtf8 text, 0, {}⟩ rfl
    rw [receivedName_eq (hzero htext)] at hreceived
    obtain ⟨read, hread, hname⟩ := Option.map_eq_some_iff.mp hreceived
    -- the text that was read is the whole text, so nothing was cut
    obtain rfl : read = text := by
      rw [← hname, decodeUtf16_encodeUtf16] at htext
      exact Option.some.inj htext
    have hlength := length_of_decodeUtf8 hread
    rw [List.length_take] at hlength
    simp only [fileNameSize] at hlength
    omega
  · rintro ⟨text, htext, hnarrow, hfits⟩
    refine ⟨encodeUtf8 text, offeredName_of_toNarrow htext hnarrow, fun args hargs => ?_⟩
    rw [receivedName_eq (hargs ▸ hzero htext), hargs,
      @List.take_of_length_le _ (fileNameSize - 1) _ hfits, decodeUtf8_encodeUtf8,
      Option.map_some, encodeUtf16_of_decodeUtf16 htext]

/-- A code page of 256 characters. -/
def latinHost : Host where
  toNarrow text :=
    if text.all fun c => c.toNat < 256 then some (text.map fun c => UInt8.ofNat c.toNat) else none
  ofNarrow text := some (text.map fun b => Char.ofNat b.toNat)
  sameFile first second := first == second

/-- The name `é.txt`. -/
theorem arrives_of_accent : Arrives latinHost [0xE9, 46, 116, 120, 116] := by
  have hadmitted : Admitted [0xE9, 46, 116, 120, 116] :=
    ⟨by decide, by decide, by simp [reservedUnit]⟩
  exact (arrives_iff hadmitted).mpr ⟨_, rfl, by decide, by decide⟩

/-- A name of 128 accented letters, cut inside the last of them. -/
theorem not_arrives_of_accents :
    ¬ ∀ (host : Host) (name : List UInt16), Admitted name → Arrives host name := by
  intro hall
  have hadmitted : Admitted (List.replicate 128 0xE9) := by
    refine ⟨by simp, by simp, fun u hu => ?_⟩
    rw [List.eq_of_mem_replicate hu]
    rfl
  obtain ⟨bytes, hoffered, harrives⟩ := hall latinHost _ hadmitted
  have hreceived := harrives ⟨0, bytes, 0, {}⟩ rfl
  have hcut : (offeredName latinHost (List.replicate 128 0xE9)).bind
      (fun bytes => receivedName ⟨0, bytes, 0, {}⟩) = none := by decide +kernel
  rw [hoffered, Option.bind_some, hreceived] at hcut
  cases hcut

end Sxaint.Net
