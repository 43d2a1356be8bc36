/-
# Byte streams with a state

Output and input streams that keep whether an operation has failed. A failed stream does nothing any
more: writing to it adds no bytes, and reading from it leaves the destination as it was. A read that
finds too few bytes stores those and fails.
-/

import Mathlib.Data.List.Basic

namespace ByteStream

/-- A file that is written. -/
structure Output where
  written : List UInt8 := []
  good : Bool
  /-- How many more bytes find room in the file. -/
  room : ℕ
  deriving DecidableEq, Repr

/-- A file that is read. -/
structure Input where
  rest : List UInt8
  good : Bool
  deriving DecidableEq, Repr

def Output.write (file : Output) (bytes : List UInt8) : Output :=
  if file.good then
    { written := file.written ++ bytes.take file.room
      good := bytes.length ≤ file.room
      room := file.room - bytes.length }
  else file

/-- Read a number of bytes over what the destination holds. -/
def Input.read (file : Input) (count : ℕ) (held : List UInt8) : List UInt8 × Input :=
  if file.good then
    let stored := file.rest.take count
    (stored ++ held.drop stored.length,
      { rest := file.rest.drop count, good := count ≤ file.rest.length })
  else (held, file)

/-- A stream that is good after several writes was good before and has taken all of them. -/
theorem Output.of_good_foldl {file : Output} {parts : List (List UInt8)}
    (good : (parts.foldl write file).good = true) :
    file.good = true ∧ (parts.foldl write file).written = file.written ++ parts.flatten := by
  induction parts generalizing file with
  | nil => exact ⟨good, by simp⟩
  | cons part parts ih =>
      obtain ⟨hgood, hwritten⟩ := ih good
      rw [List.foldl_cons, hwritten, List.flatten_cons, ← List.append_assoc]
      rw [write] at hgood ⊢
      split
      · rename_i hopen
        rw [if_pos hopen] at hgood
        rw [List.take_of_length_le (by simpa using hgood)]
        exact ⟨hopen, rfl⟩
      · rename_i hfailed
        rw [if_neg hfailed] at hgood
        exact (hfailed hgood).elim

/-- With room for all of them several writes succeed. -/
theorem Output.good_foldl {file : Output} {parts : List (List UInt8)} (opened : file.good = true)
    (fits : parts.flatten.length ≤ file.room) : (parts.foldl write file).good = true := by
  induction parts generalizing file with
  | nil => exact opened
  | cons part parts ih =>
      rw [List.flatten_cons, List.length_append] at fits
      rw [List.foldl_cons]
      apply ih
      · rw [write, if_pos opened]
        simp only [decide_eq_true_eq]
        omega
      · rw [write, if_pos opened]
        simp only
        omega

/-- Reading as many bytes as come next replaces the destination by them. -/
theorem Input.read_append {front rest held : List UInt8} {count : ℕ}
    (size : front.length = count) (same : held.length = count) :
    Input.read ⟨front ++ rest, true⟩ count held = (front, ⟨rest, true⟩) := by
  subst size
  simp [read, ← same]

theorem Input.read_of_failed {file : Input} (failed : file.good = false) (count : ℕ)
    (held : List UInt8) : file.read count held = (held, file) := by
  rw [read, if_neg (by simp [failed])]

end ByteStream
