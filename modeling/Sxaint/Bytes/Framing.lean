/-
# Framed streams

A stream that carries items one after another, and a reader that gets it in pieces. A
format encodes an item and recognizes the first item of a buffer once it is there as a
whole. The pieces need not respect the items: the reader appends each piece to a buffer and
takes items off its front for as long as it finds one. What it has taken and what it has
buffered together are what it has read, and the buffer is left with a part of one item.
-/

import Mathlib.Data.List.Infix

namespace Framing

universe u v

/-- How items are written to a stream and found again. -/
structure Format (α : Type u) (β : Type v) where
  encode : α → List β
  /-- The first item of a buffer and what follows it, if it is there as a whole. -/
  next : List β → Option (α × List β)

variable {α : Type u} {β : Type v}

/-- Valid items are recognized as soon as they are there as a whole, and not before. -/
structure Format.Lawful (F : Format α β) (Valid : α → Prop) : Prop where
  nonempty : ∀ item, Valid item → F.encode item ≠ []
  whole : ∀ item, Valid item → ∀ rest, F.next (F.encode item ++ rest) = some (item, rest)
  empty : F.next [] = none
  short : ∀ item, Valid item → ∀ front, front <+: F.encode item → front ≠ F.encode item →
    F.next front = none

namespace Format

variable {F : Format α β} {Valid : α → Prop}

/-- The stream of some items. -/
def stream (F : Format α β) (items : List α) : List β :=
  items.flatMap F.encode

@[simp]
theorem stream_nil : F.stream [] = [] := rfl

@[simp]
theorem stream_cons (item : α) (items : List α) :
    F.stream (item :: items) = F.encode item ++ F.stream items := rfl

@[simp]
theorem stream_append (front back : List α) :
    F.stream (front ++ back) = F.stream front ++ F.stream back := by
  rw [stream, List.flatMap_append, stream, stream]

/-- Nothing, or a part of the first of the items. -/
def Incomplete (F : Format α β) (buffer : List β) (items : List α) : Prop :=
  buffer = [] ∨ ∃ item rest, items = item :: rest ∧ buffer <+: F.encode item ∧
    buffer ≠ F.encode item

/-- More items behind them do not complete the first one. -/
theorem Incomplete.grow {buffer : List β} {items : List α} (incomplete : F.Incomplete buffer items)
    (more : List α) : F.Incomplete buffer (items ++ more) := by
  rcases incomplete with hnil | ⟨item, rest, rfl, hpart, hne⟩
  · exact .inl hnil
  · exact .inr ⟨item, rest ++ more, rfl, hpart, hne⟩

/-- At the front of a stream the reader finds its first item, or a part of it and
nothing to take. -/
theorem Lawful.next_cases (lawful : F.Lawful Valid) {items : List α}
    (valid : ∀ item ∈ items, Valid item) {buffer : List β} (part : buffer <+: F.stream items) :
    (F.next buffer = none ∧ F.Incomplete buffer items) ∨
      ∃ item rest left, items = item :: rest ∧ F.next buffer = some (item, left) ∧
        buffer = F.encode item ++ left ∧ left <+: F.stream rest := by
  cases items with
  | nil =>
      obtain rfl := List.prefix_nil.mp part
      exact .inl ⟨lawful.empty, .inl rfl⟩
  | cons item rest =>
      have hvalid := valid item List.mem_cons_self
      have hfirst : F.encode item <+: F.stream (item :: rest) := List.prefix_append _ _
      by_cases hwhole : F.encode item <+: buffer
      · obtain ⟨left, rfl⟩ := hwhole
        have hleft : left <+: F.stream rest := by
          rw [stream_cons] at part
          exact (List.prefix_append_right_inj _).mp part
        exact .inr ⟨item, rest, left, rfl, lawful.whole item hvalid left, rfl, hleft⟩
      · have hpart : buffer <+: F.encode item :=
          (List.prefix_or_prefix_of_prefix part hfirst).resolve_right hwhole
        have hne : buffer ≠ F.encode item := by
          rintro rfl
          exact hwhole (List.prefix_refl _)
        exact .inl ⟨lawful.short item hvalid buffer hpart hne, .inr ⟨item, rest, rfl, hpart, hne⟩⟩

/-- A reader of the stream of some items has taken the first of them and buffers the rest
of what it has read. -/
structure Reading (F : Format α β) (items : List α) (read : List β) (taken : List α)
    (buffer : List β) : Prop where
  split : read = F.stream taken ++ buffer
  part : read <+: F.stream items
  front : taken <+: items

/-- Before anything is read. -/
theorem reading_nil (F : Format α β) (items : List α) : F.Reading items [] [] [] :=
  ⟨rfl, List.nil_prefix, List.nil_prefix⟩

section Reading

variable {items : List α} {read : List β} {taken : List α} {buffer : List β}

/-- The writer goes on. -/
theorem Reading.grow (reading : F.Reading items read taken buffer) (more : List α) :
    F.Reading (items ++ more) read taken buffer := by
  refine ⟨reading.split, ?_, reading.front.trans (List.prefix_append _ _)⟩
  rw [stream_append]
  exact reading.part.trans (List.prefix_append _ _)

/-- A piece of the stream is read. -/
theorem Reading.feed (reading : F.Reading items read taken buffer) {piece : List β}
    (part : read ++ piece <+: F.stream items) :
    F.Reading items (read ++ piece) taken (buffer ++ piece) :=
  ⟨by rw [reading.split, List.append_assoc], part, reading.front⟩

/-- What the reader finds in its buffer. -/
theorem Reading.next_cases (lawful : F.Lawful Valid) (valid : ∀ item ∈ items, Valid item)
    (reading : F.Reading items read taken buffer) :
    (F.next buffer = none ∧ ∃ rest, items = taken ++ rest ∧ F.Incomplete buffer rest) ∨
      ∃ item left, Valid item ∧ buffer = F.encode item ++ left ∧
        F.next buffer = some (item, left) ∧ F.Reading items read (taken ++ [item]) left := by
  obtain ⟨rest, rfl⟩ := reading.front
  have hpart : buffer <+: F.stream rest := by
    have hread := reading.part
    rw [reading.split, stream_append] at hread
    exact (List.prefix_append_right_inj _).mp hread
  have hvalid : ∀ item ∈ rest, Valid item := fun item hmem =>
    valid item (List.mem_append_right _ hmem)
  rcases lawful.next_cases hvalid hpart with
    ⟨hnone, hincomplete⟩ | ⟨item, tail, left, rfl, hnext, hbuffer, -⟩
  · exact .inl ⟨hnone, rest, rfl, hincomplete⟩
  · refine .inr ⟨item, left, hvalid item List.mem_cons_self, hbuffer, hnext, ?_, reading.part, ?_⟩
    · rw [reading.split, hbuffer, stream_append, stream_cons, stream_nil, List.append_nil,
        List.append_assoc]
    · exact ⟨tail, by rw [List.append_assoc, List.singleton_append]⟩

/-- Items that are recognized wherever they are, at the front of what the stream of others begins
with, are the first of these. -/
theorem Lawful.reading_of_part (lawful : F.Lawful Valid) (valid : ∀ item ∈ items, Valid item)
    (whole : ∀ item ∈ taken, ∀ rest, F.next (F.encode item ++ rest) = some (item, rest))
    (part : F.stream taken ++ buffer <+: F.stream items) :
    F.Reading items (F.stream taken ++ buffer) taken buffer := by
  refine ⟨rfl, part, ?_⟩
  induction taken generalizing items with
  | nil => exact List.nil_prefix
  | cons first taken ih =>
      obtain ⟨hfirst, htaken⟩ := List.forall_mem_cons.mp whole
      obtain ⟨rest, hrest⟩ := part
      rw [stream_cons, List.append_assoc, List.append_assoc] at hrest
      have hnext := hfirst (F.stream taken ++ (buffer ++ rest))
      cases items with
      | nil =>
          rw [hrest, stream_nil, lawful.empty] at hnext
          cases hnext
      | cons item items =>
          obtain ⟨hitem, hitems⟩ := List.forall_mem_cons.mp valid
          rw [hrest, stream_cons, lawful.whole item hitem] at hnext
          obtain ⟨rfl, hsame⟩ := Prod.mk.inj (Option.some.inj hnext)
          have hpart : F.stream taken ++ buffer <+: F.stream items :=
            ⟨rest, by rw [hsame, List.append_assoc]⟩
          exact List.cons_prefix_cons.mpr ⟨rfl, ih hitems htaken hpart⟩

/-- A reader that has read the whole stream, and finds nothing more to take, has taken all
the items. -/
theorem Reading.eq_of_whole (lawful : F.Lawful Valid) (valid : ∀ item ∈ items, Valid item)
    (reading : F.Reading items read taken buffer) (whole : read = F.stream items)
    (stuck : ∃ rest, items = taken ++ rest ∧ F.Incomplete buffer rest) :
    taken = items ∧ buffer = [] := by
  obtain ⟨rest, rfl, hincomplete⟩ := stuck
  have hbuffer : buffer = F.stream rest := by
    have hread := reading.split
    rw [whole, stream_append] at hread
    exact (List.append_cancel_left hread).symm
  cases rest with
  | nil => exact ⟨(List.append_nil _).symm, hbuffer⟩
  | cons item rest =>
      have hvalid := valid item (List.mem_append_right _ List.mem_cons_self)
      rcases hincomplete with hnil | ⟨first, tail, hcons, hpart, hne⟩
      · rw [hnil, stream_cons] at hbuffer
        exact (lawful.nonempty item hvalid (List.append_eq_nil_iff.mp hbuffer.symm).1).elim
      · cases hcons
        apply hne.elim
        apply hpart.eq_of_length
        have hle := hpart.length_le
        rw [hbuffer, stream_cons, List.length_append] at hle
        rw [hbuffer, stream_cons, List.length_append]
        omega

end Reading

end Format

end Framing
