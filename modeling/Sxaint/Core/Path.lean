/-
# Paths on the receiving machine

The part of `std::filesystem::path` that names the received file: construction
from UTF-8, `operator/`, `filename`, `stem` and `extension`, as the library of
the only supported platform has them. A path holds native text; the conversions
between native and narrow text depend on the machine's code page and are
parameters, as is the notion of two paths naming one file.
-/

import Mathlib.Data.List.Basic

namespace Sxaint.Core

/-- What the machine decides about names. -/
structure Host where
  /-- `path::string`: native text as narrow text, or nothing if it throws. -/
  toNarrow : List Char → Option (List UInt8)
  /-- A path from narrow text, or nothing if the conversion throws. -/
  ofNarrow : List UInt8 → Option (List Char)
  /-- Whether two paths name the same file. -/
  sameFile : List Char → List Char → Bool

/-- A path, as its native text. -/
structure Path where
  native : List Char
  deriving DecidableEq, Repr

/-- The scalar value of a decoded sequence, if it is one and not overlong. -/
def scalar (least value : ℕ) : Option Char :=
  if least ≤ value ∧ value.isValidChar then some (Char.ofNat value) else none

/-- The payload of a continuation byte. -/
def continuation (byte : UInt8) : Option ℕ :=
  if 0x80 ≤ byte.toNat ∧ byte.toNat < 0xC0 then some (byte.toNat - 0x80) else none

/-- Strict UTF-8 decoding. Malformed, overlong and truncated sequences and
surrogates have no decoding. -/
def decodeUtf8 : List UInt8 → Option (List Char)
  | [] => some []
  | a :: rest =>
    if a.toNat < 0x80 then (decodeUtf8 rest).map (Char.ofNat a.toNat :: ·)
    else
      match rest with
      | [] => none
      | b :: rest =>
        if a.toNat < 0xE0 then do
          let low ← continuation b
          let c ← scalar 0x80 ((a.toNat - 0xC0) * 64 + low)
          (decodeUtf8 rest).map (c :: ·)
        else
          match rest with
          | [] => none
          | d :: rest =>
            if a.toNat < 0xF0 then do
              let mid ← continuation b
              let low ← continuation d
              let c ← scalar 0x800 ((a.toNat - 0xE0) * 4096 + mid * 64 + low)
              (decodeUtf8 rest).map (c :: ·)
            else
              match rest with
              | [] => none
              | e :: rest => do
                let high ← continuation b
                let mid ← continuation d
                let low ← continuation e
                let c ← scalar 0x10000
                  ((a.toNat - 0xF0) * 262144 + high * 4096 + mid * 64 + low)
                (decodeUtf8 rest).map (c :: ·)

namespace Path

/-- Both separators are accepted everywhere. -/
def isSlash (c : Char) : Bool :=
  c == '\\' || c == '/'

def isDriveLetter (c : Char) : Bool :=
  ('a' ≤ c && c ≤ 'z') || ('A' ≤ c && c ≤ 'Z')

/-- The length of the root name: a drive, a device prefix or a server. -/
def rootNameLength : List Char → ℕ
  | a :: b :: rest =>
    if isDriveLetter a && b == ':' then 2
    else if !isSlash a then 0
    else
      match rest with
      | [] => 0
      | c :: tail =>
        let device := (isSlash b && (c == '?' || c == '.')) || (b == '?' && c == '?')
        let closed := match tail with
          | [] => false
          | [d] => isSlash d
          | d :: e :: _ => isSlash d && !isSlash e
        if device && closed then 3
        else if isSlash b && !isSlash c then 3 + (tail.takeWhile (!isSlash ·)).length
        else 0
  | _ => 0

/-- The text after the root name. -/
def afterRootName (path : Path) : List Char :=
  path.native.drop (rootNameLength path.native)

def hasRootDirectory (path : Path) : Bool :=
  match path.afterRootName with
  | c :: _ => isSlash c
  | [] => false

/-- A drive needs a root directory to be absolute; other root names do not. -/
def isAbsolute (path : Path) : Bool :=
  match path.native with
  | a :: ':' :: rest =>
    if isDriveLetter a then
      match rest with
      | c :: _ => isSlash c
      | [] => false
    else rootNameLength path.native != 0
  | _ => rootNameLength path.native != 0

/-- `operator/`. An absolute right side, or one on another drive, replaces the
left side; one with a root directory keeps only the left side's root name. -/
def append (path other : Path) : Path :=
  let rootLength := rootNameLength path.native
  let otherRoot := other.native.take (rootNameLength other.native)
  if other.isAbsolute then other
  else if otherRoot ≠ [] ∧ path.native.take rootLength ≠ otherRoot then other
  else if other.hasRootDirectory then
    ⟨path.native.take rootLength ++ other.afterRootName⟩
  else
    let separated :=
      if path.native.length = rootLength then decide (rootLength < 3)
      else (path.native.getLast?.map isSlash).getD true
    if separated then ⟨path.native ++ other.afterRootName⟩
    else ⟨path.native ++ '\\' :: other.afterRootName⟩

/-- The text after the last separator of the relative part. -/
def filename (path : Path) : List Char :=
  let relative := path.afterRootName.dropWhile isSlash
  (relative.reverse.takeWhile (!isSlash ·)).reverse

/-- A file name up to its stream name, cut before its last dot. A leading dot and
the name of the parent directory do not start an extension. -/
def splitExtension (name : List Char) : List Char × List Char :=
  let name := name.takeWhile (· != ':')
  let after := (name.reverse.takeWhile (· != '.')).length
  let cut := name.length - after - 1
  if name ≠ ['.', '.'] ∧ after < name.length ∧ 1 ≤ cut then (name.take cut, name.drop cut)
  else (name, [])

def stem (path : Path) : List Char :=
  (splitExtension path.filename).1

def extension (path : Path) : List Char :=
  (splitExtension path.filename).2

end Path

end Sxaint.Core
