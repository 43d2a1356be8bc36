/-
# Text read up to delimiters

Reading from a byte stream up to a delimiter, which is taken out of the stream and is not part of
the text. The end of the stream ends a text too, but a stream that is at its end has no further
text, not even an empty one. What was written with a delimiter behind each part is read part by
part.
-/

import Sxaint.Bytes.ByteStream

namespace ByteStream

/-- The text up to the delimiter or to the end; nothing if no byte is left. -/
def Input.getline (delimiter : UInt8) (file : Input) : Option (List UInt8 × Input) :=
  if file.good = true ∧ file.rest ≠ [] then
    let text := file.rest.takeWhile (· ≠ delimiter)
    some (text, { rest := file.rest.drop (text.length + 1), good := delimiter ∈ file.rest })
  else none

/-- Read texts until no further one is found, or at most so many. -/
def Input.parts (delimiter : UInt8) : ℕ → Input → List (List UInt8)
  | 0, _ => []
  | most + 1, file =>
    match file.getline delimiter with
    | some (part, file) => part :: file.parts delimiter most
    | none => []

/-- The parts of a text between delimiters. Each of them takes at least one byte. -/
def partsOf (delimiter : UInt8) (text : List UInt8) : List (List UInt8) :=
  Input.parts delimiter text.length ⟨text, true⟩

/-- The end of a line. -/
def newline : UInt8 := 10

def linesOf (text : List UInt8) : List (List UInt8) :=
  partsOf newline text

/-- Lines, each with its end. -/
def unlines (lines : List (List UInt8)) : List UInt8 :=
  lines.flatMap fun line => line ++ [newline]

theorem unlines_append (front back : List (List UInt8)) :
    unlines (front ++ back) = unlines front ++ unlines back :=
  List.flatMap_append

section

variable {delimiter : UInt8} {text : List UInt8}

theorem takeWhile_of_notMem (free : delimiter ∉ text) (rest : List UInt8) :
    (text ++ rest).takeWhile (· ≠ delimiter) = text ++ rest.takeWhile (· ≠ delimiter) := by
  apply List.takeWhile_append_of_pos
  intro byte hmem
  apply decide_eq_true
  rintro rfl
  exact free hmem

/-- A text with the delimiter behind it is read, and the stream goes on behind the delimiter. -/
theorem Input.getline_field (free : delimiter ∉ text) (rest : List UInt8) :
    Input.getline delimiter ⟨text ++ delimiter :: rest, true⟩ = some (text, ⟨rest, true⟩) := by
  have htext : (text ++ delimiter :: rest).takeWhile (· ≠ delimiter) = text := by
    rw [takeWhile_of_notMem free, List.takeWhile_cons_of_neg (by simp), List.append_nil]
  rw [getline, if_pos ⟨rfl, by simp⟩, htext]
  simp

/-- The last text of a stream is read, and then the stream has failed. -/
theorem Input.getline_last (free : delimiter ∉ text) (nonempty : text ≠ []) :
    Input.getline delimiter ⟨text, true⟩ = some (text, ⟨[], false⟩) := by
  have htext : text.takeWhile (· ≠ delimiter) = text := by
    simpa using takeWhile_of_notMem free []
  rw [getline, if_pos ⟨rfl, nonempty⟩, htext]
  simp [free]

/-- A text without the delimiter is determined by what stands before the first delimiter. -/
theorem separated_inj {other rest rest' : List UInt8} (free : delimiter ∉ text)
    (free' : delimiter ∉ other) (same : text ++ delimiter :: rest = other ++ delimiter :: rest') :
    text = other ∧ rest = rest' := by
  have hread := Input.getline_field free rest
  rw [same, Input.getline_field free' rest'] at hread
  cases hread
  exact ⟨rfl, rfl⟩

/-- What is read is followed by the delimiter or by nothing. -/
theorem Input.eq_of_getline {file next : Input}
    (read : file.getline delimiter = some (text, next)) :
    file.rest = text ++ delimiter :: next.rest ∨ file.rest = text ∧ next.rest = [] := by
  obtain ⟨rest, good⟩ := file
  have hopen : good = true ∧ rest ≠ [] := by
    by_contra hclosed
    rw [getline, if_neg hclosed] at read
    cases read
  obtain ⟨rfl, hnonempty⟩ := hopen
  by_cases hmem : delimiter ∈ rest
  · obtain ⟨front, back, rfl, hfree⟩ := List.eq_append_cons_of_mem hmem
    rw [getline_field hfree] at read
    cases read
    exact .inl rfl
  · rw [getline_last hmem hnonempty] at read
    cases read
    exact .inr ⟨rfl, rfl⟩

/-- What is kept by cutting a text at the delimiter holds of all its parts. -/
theorem Input.forall_mem_parts {P : List UInt8 → Prop} (nil : P [])
    (cut : ∀ {front back}, P (front ++ delimiter :: back) → P front ∧ P back)
    {most : ℕ} {file : Input} (whole : P file.rest) :
    ∀ part ∈ file.parts delimiter most, P part := by
  induction most generalizing file with
  | zero => simp [parts]
  | succ most ih =>
      intro part hmem
      rw [parts] at hmem
      split at hmem
      · rename_i text next hread
        have hcut : P text ∧ P next.rest := by
          rcases eq_of_getline hread with heq | ⟨heq, hend⟩
          · exact cut (heq ▸ whole)
          · exact ⟨heq ▸ whole, hend ▸ nil⟩
        rcases List.mem_cons.mp hmem with rfl | hlater
        · exact hcut.1
        · exact ih hcut.2 part hlater
      · cases hmem

end

theorem Input.parts_unlines {lines : List (List UInt8)} (clean : ∀ line ∈ lines, newline ∉ line)
    {most : ℕ} (enough : lines.length ≤ most) :
    Input.parts newline most ⟨unlines lines, true⟩ = lines := by
  induction lines generalizing most with
  | nil =>
      cases most <;> rfl
  | cons line lines ih =>
      have hread : Input.getline newline ⟨unlines (line :: lines), true⟩ =
          some (line, ⟨unlines lines, true⟩) := by
        have htext : unlines (line :: lines) = line ++ newline :: unlines lines := by
          simp [unlines]
        rw [htext, getline_field (clean line List.mem_cons_self)]
      cases most with
      | zero => cases enough
      | succ most =>
          rw [Input.parts, hread]
          exact congrArg (line :: ·) (ih (fun l hl => clean l (List.mem_cons_of_mem line hl))
            (Nat.le_of_succ_le_succ enough))

theorem length_le_length_unlines (lines : List (List UInt8)) :
    lines.length ≤ (unlines lines).length := by
  induction lines with
  | nil => exact Nat.le_refl 0
  | cons line lines ih =>
      rw [unlines, List.flatMap_cons, List.length_append, ← unlines, List.length_append,
        List.length_cons, List.length_singleton]
      omega

/-- Lines that were written are read again. -/
theorem linesOf_unlines {lines : List (List UInt8)} (clean : ∀ line ∈ lines, newline ∉ line) :
    linesOf (unlines lines) = lines :=
  Input.parts_unlines clean (length_le_length_unlines lines)

end ByteStream
