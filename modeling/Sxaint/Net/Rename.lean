/-
# The name that a received file gets

`processHandshake` takes the name of the handshake, and as long as a file of the name exists, the
next numbered one. The search is over the entries of a directory that nobody else changes. It ends
at the first free name, since no entry stands in the way of two names; but it is not begun for a
name that the code page of the machine cannot write.
-/

import Sxaint.Math.FirstFree
import Sxaint.Net.Containment

namespace Sxaint.Core

/-- A code page that converts character by character. -/
structure Host.ByCharacter (host : Host) : Prop extends host.Converts where
  join : ∀ {first second left right}, host.toNarrow first = some left →
    host.toNarrow second = some right → host.toNarrow (first ++ second) = some (left ++ right)
  narrowAscii : ∀ text : List Char, (∀ c ∈ text, c.toNat < 128) →
    host.toNarrow text = some (text.map fun c => UInt8.ofNat c.toNat)

/-- Two names of a directory that are one file have the same digits. They may differ in the case of
letters, and in dots and blanks at the end. -/
def Host.Distinguishes (host : Host) (directory : Path) : Prop :=
  ∀ entry first second : List Char, Path.Plain first → first ≠ [] → Path.Plain second →
    second ≠ [] → host.sameFile entry (directory.append ⟨first⟩).native = true →
    host.sameFile entry (directory.append ⟨second⟩).native = true →
    first.filter Char.isDigit = second.filter Char.isDigit

/-- One of the entries is the file at a path. -/
def Host.Present (host : Host) (disk : List Path) (path : Path) : Prop :=
  ∃ entry ∈ disk, host.sameFile entry.native path.native = true

end Sxaint.Core

namespace Sxaint.Net

open Sxaint.Core Transition

namespace Endpoint

/-! ## The names in their order -/

/-- A stem with a number in parentheses and an extension. -/
def numberedText (stem ext : List Char) (counter : ℕ) : List Char :=
  stem ++ [' ', '('] ++ Nat.toDigits 10 counter ++ [')'] ++ ext

/-- The path with a number put into the name. -/
def numberedPath (outputDir : Path) (name : List Char) (counter : ℕ) : Path :=
  outputDir.append
    ⟨numberedText (Path.splitExtension name).1 (Path.splitExtension name).2 counter⟩

/-- The names that are tried, the one of the handshake first. -/
def tried (name : List Char) : ℕ → List Char
  | 0 => name
  | counter + 1 =>
    numberedText (Path.splitExtension name).1 (Path.splitExtension name).2 (counter + 1)

theorem toDigits_injective : Function.Injective (Nat.toDigits 10) := by
  intro first second heq
  rw [← @Nat.ofDigitChars_ten_toDigits first, heq, Nat.ofDigitChars_ten_toDigits]

theorem isDigit_of_mem_toDigits {counter : ℕ} {c : Char} (mem : c ∈ Nat.toDigits 10 counter) :
    c.isDigit = true :=
  Nat.isDigit_of_mem_toDigits (by decide) (by decide) mem

theorem plain_numberedText {stem ext : List Char} (plainStem : Path.Plain stem)
    (plainExt : Path.Plain ext) (counter : ℕ) : Path.Plain (numberedText stem ext counter) := by
  have hdigits : Path.Plain (Nat.toDigits 10 counter) := by
    intro c hc
    have hdigit := isDigit_of_mem_toDigits hc
    constructor
    · cases hslash : Path.isSlash c with
      | false => rfl
      | true =>
          rw [Path.isSlash, Bool.or_eq_true, beq_iff_eq, beq_iff_eq] at hslash
          rcases hslash with rfl | rfl <;> cases hdigit
    · rintro rfl
      cases hdigit
  have hopen : Path.Plain [' ', '('] := by
    intro c hc
    rcases List.mem_pair.mp hc with rfl | rfl <;> decide
  have hclose : Path.Plain [')'] := by
    intro c hc
    rw [List.mem_singleton.mp hc]
    decide
  exact (((plainStem.append hopen).append hdigits).append hclose).append plainExt

theorem plain_tried {name : List Char} (plain : Path.Plain name) (index : ℕ) :
    Path.Plain (tried name index) := by
  cases index with
  | zero => exact plain
  | succ counter =>
      have hsplit := Path.plain_splitExtension fun c hc => (plain c hc).1
      exact plain_numberedText hsplit.1 hsplit.2 _

theorem tried_ne_nil {name : List Char} (nonempty : name ≠ []) (index : ℕ) :
    tried name index ≠ [] := by
  cases index with
  | zero => exact nonempty
  | succ counter => simp [tried, numberedText]

/-- Between the digits of the stem and those of the extension stand those of the number. -/
theorem digits_tried {name : List Char} (plain : Path.Plain name) (index : ℕ) :
    (tried name index).filter Char.isDigit =
      (Path.splitExtension name).1.filter Char.isDigit ++
        ((if index = 0 then [] else Nat.toDigits 10 index) ++
          (Path.splitExtension name).2.filter Char.isDigit) := by
  cases index with
  | zero =>
      rw [if_pos rfl, List.nil_append, ← List.filter_append, Path.splitExtension_of_plain plain]
      rfl
  | succ counter =>
      have hdigits : (Nat.toDigits 10 (counter + 1)).filter Char.isDigit =
          Nat.toDigits 10 (counter + 1) :=
        List.filter_eq_self.mpr fun c hc => isDigit_of_mem_toDigits hc
      have hopen : [' ', '('].filter Char.isDigit = [] := by decide
      have hclose : [')'].filter Char.isDigit = [] := by decide
      rw [if_neg (Nat.succ_ne_zero counter), tried, numberedText]
      simp only [List.filter_append, hdigits, hopen, hclose, List.nil_append, List.append_assoc]

theorem tried_injective {name : List Char} (plain : Path.Plain name) {first second : ℕ}
    (same : (tried name first).filter Char.isDigit = (tried name second).filter Char.isDigit) :
    first = second := by
  rw [digits_tried plain, digits_tried plain] at same
  have hnumber := List.append_cancel_right (List.append_cancel_left same)
  split at hnumber <;> split at hnumber
  · omega
  · exact (Nat.toDigits_ne_nil hnumber.symm).elim
  · exact (Nat.toDigits_ne_nil hnumber).elim
  · exact toDigits_injective hnumber

/-! ## The loop -/

section Loop

variable (P : Platform) (hs : Handshake) (states : ℕ → Endpoint)

/-- Where the task is after its first steps from the conversion of the name on. Each of them is
taken in a state of its own, and no system call fails in it. -/
def after : ℕ → Option HandshakePc
  | 0 => some .convert
  | steps + 1 =>
    (after steps).bind fun pc => (processHandshake P hs pc true (states steps)).map Prod.fst

variable {P hs states} {outputDir : Path} {disk : List Path} {name : List Char}

theorem after_succ {steps : ℕ} {pc next : HandshakePc} (here : after P hs states steps = some pc)
    (taken : (processHandshake P hs pc true (states steps)).map Prod.fst = some next) :
    after P hs states (steps + 1) = some next := by
  rw [after, here]
  exact taken

/-- The target is the path of the name if that is free, and else the one with the least number
from 1 on that is free. -/
structure FreshTarget (host : Host) (outputDir : Path) (disk : List Path) (name : List Char)
    (target : Path) : Prop where
  free : ¬ host.Present disk target
  original : ¬ host.Present disk (outputDir.append ⟨name⟩) → target = outputDir.append ⟨name⟩
  numbered : host.Present disk (outputDir.append ⟨name⟩) →
    ∃ counter, IsLeast {k | 1 ≤ k ∧ ¬ host.Present disk (numberedPath outputDir name k)} counter ∧
      target = numberedPath outputDir name counter

variable (P hs states outputDir disk name) in
/-- The task comes to create a file at a fresh target, and its counter stays in an `int`. -/
def Renames : Prop :=
  ∃ steps target, after P hs states steps = some (.preallocate target) ∧
    FreshTarget P.host outputDir disk name target ∧
    ∀ i ≤ steps, ∀ stem ext counter tried,
      after P hs states i = some (.rename stem ext counter tried) → counter < 2 ^ 31

theorem fileExists_iff {w : Endpoint} {path : Path} :
    fileExists P w path = true ↔ P.host.Present w.disk path := by
  rw [fileExists, List.any_eq_true]
  rfl

/-- The first name that is free gives a fresh target. -/
theorem freshTarget_of_isFirst {host : Host} {index : ℕ}
    (first : FirstFree.IsFirst
      (fun entry i => host.sameFile entry.native (outputDir.append ⟨tried name i⟩).native = true)
      disk index) :
    FreshTarget host outputDir disk name (outputDir.append ⟨tried name index⟩) := by
  refine ⟨first.free, ?_, ?_⟩
  · intro hfree
    cases index with
    | zero => rfl
    | succ counter => exact (hfree (first.taken 0 (Nat.succ_pos counter))).elim
  · intro hpresent
    cases index with
    | zero => exact (first.free hpresent).elim
    | succ counter =>
        refine ⟨counter + 1, ⟨⟨Nat.le_add_left 1 counter, first.free⟩, ?_⟩, rfl⟩
        rintro k ⟨hpositive, hfree⟩
        by_contra hlt
        obtain ⟨k, rfl⟩ := Nat.exists_eq_succ_of_ne_zero (Nat.one_le_iff_ne_zero.mp hpositive)
        exact hfree (first.taken _ (Nat.lt_of_not_le hlt))

section Conversions

variable {stem ext : List UInt8}

/-- The conversion of a numbered name gives the name with that number. -/
theorem ofNarrow_numberedName (converts : P.host.Converts)
    (hstem : P.host.toNarrow (Path.splitExtension name).1 = some stem)
    (hext : P.host.toNarrow (Path.splitExtension name).2 = some ext) (counter : ℕ) :
    P.host.ofNarrow (numberedName stem ext (counter + 1)) = some (tried name (counter + 1)) := by
  have hdigits : (Crypto.toDecimal (counter + 1)).map (fun byte => Char.ofNat byte.toNat) =
      Nat.toDigits 10 (counter + 1) := by
    rw [Crypto.toDecimal, List.map_map]
    conv_rhs => rw [← List.map_id (Nat.toDigits 10 (counter + 1))]
    apply List.map_congr_left
    intro c hc
    have hrange := Char.isDigit_iff_toNat.mp (isDigit_of_mem_toDigits hc)
    have hhigh : '9'.toNat = 57 := rfl
    rw [Function.comp_apply, UInt8.toNat_ofNat', Nat.mod_eq_of_lt (by omega), Char.ofNat_toNat, id]
  have hnumbering := converts.ascii (numbering (counter + 1)) fun byte hbyte => by
    have hbound := (toNat_of_mem_numbering hbyte).1
    omega
  have hback := converts.append (converts.append (converts.back hstem) hnumbering)
    (converts.back hext)
  rw [numberedName_eq, hback, numbering, List.map_append, List.map_append, hdigits]
  simp [tried, numberedText]

/-- All names that are tried can be written in the code page. -/
theorem toNarrow_tried (characters : P.host.ByCharacter) (plain : Path.Plain name)
    (hstem : P.host.toNarrow (Path.splitExtension name).1 = some stem)
    (hext : P.host.toNarrow (Path.splitExtension name).2 = some ext) (index : ℕ) :
    ∃ narrow, P.host.toNarrow (tried name index) = some narrow := by
  cases index with
  | zero =>
      refine ⟨stem ++ ext, ?_⟩
      rw [tried, ← Path.splitExtension_of_plain plain]
      exact characters.join hstem hext
  | succ counter =>
      have hascii : ∀ c ∈ [' ', '('] ++ Nat.toDigits 10 (counter + 1) ++ [')'], c.toNat < 128 := by
        intro c hc
        rcases List.mem_append.mp hc with hc | hclose
        · rcases List.mem_append.mp hc with hopen | hdigit
          · rcases List.mem_pair.mp hopen with rfl | rfl <;> decide
          · have hrange := Char.isDigit_iff_toNat.mp (isDigit_of_mem_toDigits hdigit)
            have hhigh : '9'.toNat = 57 := rfl
            omega
        · rw [List.mem_singleton.mp hclose]
          decide
      have hname : tried name (counter + 1) =
          (Path.splitExtension name).1 ++ ([' ', '('] ++ Nat.toDigits 10 (counter + 1) ++ [')']) ++
            (Path.splitExtension name).2 := by
        simp only [tried, numberedText, List.append_assoc]
      rw [hname]
      exact ⟨_, characters.join (characters.join hstem (characters.narrowAscii _ hascii)) hext⟩

/-- The task tries the names in their order. -/
theorem after_of_taken (converts : P.host.Converts) (anchored : outputDir.Anchored)
    (plain : Path.Plain name)
    (unmodified : ∀ i, (states i).outputDir = outputDir ∧ (states i).disk = disk)
    (named : decodeUtf8 (states 0).currentFilename = some name)
    (hstem : P.host.toNarrow (Path.splitExtension name).1 = some stem)
    (hext : P.host.toNarrow (Path.splitExtension name).2 = some ext) {index : ℕ}
    (taken : ∀ earlier < index, P.host.Present disk (outputDir.append ⟨tried name earlier⟩)) :
    after P hs states (index + 1) =
      some (.rename stem ext (index + 1) (outputDir.append ⟨tried name index⟩)) := by
  induction index with
  | zero =>
      apply after_succ rfl
      have hfilename := Path.filename_append_of_plain anchored plain
      have htarget : targetPath P (states 0).outputDir (states 0).currentFilename =
          some (stem, ext, outputDir.append ⟨name⟩) := by
        rw [targetPath, named, (unmodified 0).1]
        simp only [Path.stem, Path.extension, hfilename, hstem, hext, Option.bind_eq_bind,
          Option.bind_some, Option.pure_def]
      simp only [processHandshake, htarget]
      rfl
  | succ index ih =>
      apply after_succ (ih fun earlier hlt => taken earlier (Nat.lt_succ_of_lt hlt))
      have hexists : fileExists P (states (index + 1)) (outputDir.append ⟨tried name index⟩) =
          true := by
        rw [fileExists_iff, (unmodified _).2]
        exact taken index (Nat.lt_succ_self index)
      simp only [processHandshake, Bool.not_true, Bool.false_eq_true, if_false, hexists, if_true,
        ofNarrow_numberedName converts hstem hext, (unmodified _).1]
      rfl

end Conversions

/-- The loop is left with the first path that does not exist. -/
theorem after_of_free (characters : P.host.ByCharacter) (anchored : outputDir.Anchored)
    (plain : Path.Plain name) {steps counter index : ℕ} {stem ext : List UInt8}
    (hstem : P.host.toNarrow (Path.splitExtension name).1 = some stem)
    (hext : P.host.toNarrow (Path.splitExtension name).2 = some ext)
    (here : after P hs states steps =
      some (.rename stem ext counter (outputDir.append ⟨tried name index⟩)))
    (free : ¬ P.host.Present (states steps).disk (outputDir.append ⟨tried name index⟩)) :
    after P hs states (steps + 1) = some (.describe (outputDir.append ⟨tried name index⟩)) := by
  obtain ⟨narrow, hnarrow⟩ := toNarrow_tried characters plain hstem hext index
  have hfree : fileExists P (states steps) (outputDir.append ⟨tried name index⟩) = false := by
    rw [Bool.eq_false_iff, Ne, fileExists_iff]
    exact free
  apply after_succ here
  simp only [processHandshake, Bool.not_true, Bool.false_eq_true, if_false, hfree,
    Path.filename_append_of_plain anchored (plain_tried plain index), hnarrow]
  rfl

/-- With a first name that is free the task comes to create a file there. -/
theorem renames_of_isFirst (characters : P.host.ByCharacter) (anchored : outputDir.Anchored)
    (plain : Path.Plain name)
    (unmodified : ∀ i, (states i).outputDir = outputDir ∧ (states i).disk = disk)
    (named : decodeUtf8 (states 0).currentFilename = some name) {stem ext : List UInt8}
    (hstem : P.host.toNarrow (Path.splitExtension name).1 = some stem)
    (hext : P.host.toNarrow (Path.splitExtension name).2 = some ext) {index : ℕ}
    (few : index < 2 ^ 31 - 1)
    (first : FirstFree.IsFirst
      (fun entry i => P.host.sameFile entry.native (outputDir.append ⟨tried name i⟩).native = true)
      disk index) :
    Renames P hs states outputDir disk name := by
  have hloop {i : ℕ} (hle : i ≤ index) : after P hs states (i + 1) =
      some (.rename stem ext (i + 1) (outputDir.append ⟨tried name i⟩)) :=
    after_of_taken characters.toConverts anchored plain unmodified named hstem hext
      fun earlier hlt => first.taken earlier (Nat.lt_of_lt_of_le hlt hle)
  have hdescribe : after P hs states (index + 2) =
      some (.describe (outputDir.append ⟨tried name index⟩)) := by
    apply after_of_free characters anchored plain hstem hext (hloop (Nat.le_refl index))
    rw [(unmodified _).2]
    exact first.free
  have hallot := after_succ hdescribe rfl
  have hreset := after_succ hallot rfl
  have hpreallocate := after_succ hreset rfl
  refine ⟨_, _, hpreallocate, freshTarget_of_isFirst first, ?_⟩
  intro i hi stem' ext' counter target hrename
  rcases i with _ | i
  · cases hrename
  by_cases hinside : i ≤ index
  · rw [hloop hinside] at hrename
    cases hrename
    omega
  · -- the steps behind the loop
    obtain rfl | rfl | rfl | rfl :
        i = index + 1 ∨ i = index + 2 ∨ i = index + 3 ∨ i = index + 4 := by
      omega
    · rw [hdescribe] at hrename
      cases hrename
    · rw [hallot] at hrename
      cases hrename
    · rw [hreset] at hrename
      cases hrename
    · rw [hpreallocate] at hrename
      cases hrename

/-- Without a stem and an extension the task throws, and comes to create nothing. -/
theorem not_renames_of_targetPath
    (throws : targetPath P (states 0).outputDir (states 0).currentFilename = none) :
    ¬ Renames P hs states outputDir disk name := by
  have hthrew : after P hs states 1 = some .threw := by
    apply after_succ rfl
    simp only [processHandshake, throws]
    rfl
  have hnone (steps : ℕ) : after P hs states (steps + 2) = none := by
    induction steps with
    | zero =>
        rw [after, hthrew]
        rfl
    | succ steps ih =>
        rw [after, ih]
        rfl
  rintro ⟨steps, target, hsteps, -⟩
  rcases steps with _ | _ | steps
  · cases hsteps
  · rw [hthrew] at hsteps
    cases hsteps
  · rw [hnone] at hsteps
    cases hsteps

/-- The search for a name ends at a fresh target exactly if the stem and the extension can be
converted. -/
theorem renames_iff (characters : P.host.ByCharacter)
    (distinguishes : P.host.Distinguishes outputDir) (anchored : outputDir.Anchored)
    (plain : Path.Plain name) (nonempty : name ≠ []) (few : disk.length < 2 ^ 31 - 1)
    (unmodified : ∀ i, (states i).outputDir = outputDir ∧ (states i).disk = disk)
    (named : decodeUtf8 (states 0).currentFilename = some name) :
    Renames P hs states outputDir disk name ↔
      (P.host.toNarrow (Path.splitExtension name).1).isSome = true ∧
        (P.host.toNarrow (Path.splitExtension name).2).isSome = true := by
  constructor
  · intro renames
    by_contra hunwritable
    refine not_renames_of_targetPath ?_ renames
    have hfilename := Path.filename_append_of_plain anchored plain
    rw [targetPath, named, (unmodified 0).1]
    simp only [Path.stem, Path.extension, hfilename, Option.bind_eq_bind, Option.bind_some]
    cases hstem : P.host.toNarrow (Path.splitExtension name).1 with
    | none => rfl
    | some stem =>
        cases hext : P.host.toNarrow (Path.splitExtension name).2 with
        | none => rfl
        | some ext => exact (hunwritable ⟨by rw [hstem]; rfl, by rw [hext]; rfl⟩).elim
  · rintro ⟨hstem, hext⟩
    obtain ⟨stem, hstem⟩ := Option.isSome_iff_exists.mp hstem
    obtain ⟨ext, hext⟩ := Option.isSome_iff_exists.mp hext
    have hsingle : ∀ entry ∈ disk, ∀ i j,
        P.host.sameFile entry.native (outputDir.append ⟨tried name i⟩).native = true →
        P.host.sameFile entry.native (outputDir.append ⟨tried name j⟩).native = true → i = j := by
      intro entry _ i j hi hj
      exact tried_injective plain (distinguishes entry.native _ _ (plain_tried plain i)
        (tried_ne_nil nonempty i) (plain_tried plain j) (tried_ne_nil nonempty j) hi hj)
    obtain ⟨index, hle, first⟩ := FirstFree.exists_isFirst hsingle
    exact renames_of_isFirst characters anchored plain unmodified named hstem hext
      (Nat.lt_of_le_of_lt hle few) first

end Loop

theorem host_byCharacter : KnownAnswers.host.ByCharacter where
  toConverts := host_converts
  join := convert_append
  narrowAscii text hascii := by
    simp only [KnownAnswers.host]
    rw [if_pos (by simpa using hascii)]

/-- Digits have no case. -/
theorem isDigit_toLower (c : Char) :
    c.toLower.isDigit = c.isDigit ∧ (c.isDigit = true → c.toLower = c) := by
  by_cases hupper : c.val ≥ 'A'.val ∧ c.val ≤ 'Z'.val
  · have hlower : c.toLower.val = c.val + ('a'.val - 'A'.val) :=
      congrArg Char.val (dif_pos hupper)
    have hlow : 65 ≤ c.val.toNat := hupper.1
    have hhigh : c.val.toNat ≤ 90 := hupper.2
    have hshifted : (c.val + ('a'.val - 'A'.val)).toNat = c.val.toNat + 32 := by
      have hgap : ('a'.val - 'A'.val).toNat = 32 := by decide
      rw [UInt32.toNat_add, hgap, Nat.mod_eq_of_lt (by omega)]
    have hletter : c.isDigit = false := by
      rw [Bool.eq_false_iff, Ne, Char.isDigit_iff_toNat]
      change ¬ (48 ≤ c.val.toNat ∧ c.val.toNat ≤ 57)
      omega
    refine ⟨?_, fun hdigit => ?_⟩
    · rw [hletter, Bool.eq_false_iff, Ne, Char.isDigit_iff_toNat]
      change ¬ (48 ≤ c.toLower.val.toNat ∧ c.toLower.val.toNat ≤ 57)
      rw [hlower]
      omega
    · rw [hletter] at hdigit
      cases hdigit
  · have hlower : c.toLower = c := dif_neg hupper
    rw [hlower]
    exact ⟨rfl, fun _ => rfl⟩

theorem filter_isDigit_toLower (text : List Char) :
    (text.map Char.toLower).filter Char.isDigit = text.filter Char.isDigit := by
  induction text with
  | nil => rfl
  | cons c rest ih =>
      obtain ⟨hsame, hfixed⟩ := isDigit_toLower c
      rw [List.map_cons, List.filter_cons, List.filter_cons, hsame, ih]
      split
      · rename_i hdigit
        rw [hfixed hdigit]
      · rfl

theorem host_distinguishes : KnownAnswers.host.Distinguishes ⟨['d']⟩ := by
  intro entry first second hfirst _ hsecond _ hentry hother
  have hnative {text : List Char} (plain : Path.Plain text) :
      (Path.append ⟨['d']⟩ ⟨text⟩).native = ['d', '\\'] ++ text := by
    obtain ⟨slash, joined, hnative⟩ :=
      Path.append_of_relative (Path.isRelativeTo_of_plain plain ⟨['d']⟩)
    rw [hnative, Path.afterRootName_of_plain plain]
    cases joined with
    | slash ends _ => cases ends 'd' rfl
    | drive bare _ => cases bare
    | name _ _ => rfl
  rw [hnative hfirst] at hentry
  rw [hnative hsecond] at hother
  simp only [KnownAnswers.host, beq_iff_eq, List.map_append] at hentry hother
  rw [hentry] at hother
  rw [← filter_isDigit_toLower first, List.append_cancel_left hother, filter_isDigit_toLower]

/-- The receiver when it has announced a name and its task is to convert it. -/
def converting (name : List UInt8) : Endpoint :=
  KnownAnswers.session.reached (.deliver (announcing name).encode :: KnownAnswers.steps 0 2)

/-- `a.txt` and `A (1).TXT` exist already. -/
theorem renames_of_letter :
    Renames KnownAnswers.platform (announcing "a.txt".toUTF8.toList)
      (fun _ => { converting "a.txt".toUTF8.toList with
        disk := [⟨['d']⟩, ⟨"d\\a.txt".toList⟩, ⟨"d\\A (1).TXT".toList⟩] })
      ⟨['d']⟩ [⟨['d']⟩, ⟨"d\\a.txt".toList⟩, ⟨"d\\A (1).TXT".toList⟩] "a.txt".toList := by
  refine (renames_iff host_byCharacter host_distinguishes
    (Path.anchored_of_head (by rintro _ ⟨⟩; rfl)) ?_ ?_ ?_ ?_ ?_).mpr ⟨?_, ?_⟩
  · decide
  · decide
  · decide
  · exact fun _ => ⟨by decide +kernel, rfl⟩
  · decide +kernel
  · decide +kernel
  · decide +kernel

/-- The name `日.txt` arrives in UTF-8, and no file exists; but the code page is ASCII. -/
theorem not_renames_of_kanji :
    ¬ ∀ (P : Platform) (hs : Handshake) (states : ℕ → Endpoint) (outputDir : Path)
      (disk : List Path) (name : List Char),
      P.host.ByCharacter → P.host.Distinguishes outputDir → outputDir.Anchored →
      Path.Plain name → name ≠ [] → disk.length < 2 ^ 31 - 1 →
      (∀ i, (states i).outputDir = outputDir ∧ (states i).disk = disk) →
      decodeUtf8 (states 0).currentFilename = some name →
      Renames P hs states outputDir disk name := by
  intro hall
  refine not_renames_of_targetPath ?_ (hall KnownAnswers.platform
    (announcing [0xE6, 0x97, 0xA5, 46, 116, 120, 116])
    (fun _ => converting [0xE6, 0x97, 0xA5, 46, 116, 120, 116]) ⟨['d']⟩ [⟨['d']⟩]
    ['日', '.', 't', 'x', 't'] host_byCharacter host_distinguishes
    (Path.anchored_of_head (by rintro _ ⟨⟩; rfl)) ?_ ?_ ?_ ?_ ?_)
  · decide +kernel
  · decide
  · decide
  · decide
  · exact fun _ => ⟨by decide +kernel, by decide +kernel⟩
  · decide +kernel

end Endpoint

end Sxaint.Net
