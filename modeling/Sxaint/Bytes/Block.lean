/-
# Blocks of a buffer

Reading and overwriting a block of a list at an offset, as a program does with a
span over a buffer. Overwriting keeps the buffer's length when the block fits,
is seen exactly by reads of the same block, and is not seen by reads of disjoint
blocks. A buffer that agrees with another one on every block of a partition is
equal to it.
-/

import Mathlib.Data.List.Basic
import Mathlib.Tactic.Ring

namespace Buffer

universe u

variable {α : Type u}

/-- The `length` entries of a buffer from `offset` on, fewer at its end. -/
def block (buffer : List α) (offset length : ℕ) : List α :=
  (buffer.drop offset).take length

/-- Replace the entries from `offset` on by the given ones. -/
def overwrite (buffer : List α) (offset : ℕ) (new : List α) : List α :=
  buffer.take offset ++ new ++ buffer.drop (offset + new.length)

theorem getElem?_block (buffer : List α) (offset length k : ℕ) :
    (block buffer offset length)[k]? =
      if k < length then buffer[offset + k]? else none := by
  rw [block, List.getElem?_take]
  split <;> simp [List.getElem?_drop]

@[simp]
theorem length_block (buffer : List α) (offset length : ℕ) :
    (block buffer offset length).length = min length (buffer.length - offset) := by
  simp [block]

theorem length_block_of_le {buffer : List α} {offset length : ℕ}
    (fits : offset + length ≤ buffer.length) :
    (block buffer offset length).length = length := by
  rw [length_block]
  omega

/-- Asking for as many entries as a block has gives the block. -/
theorem block_length_self (buffer : List α) (offset length : ℕ) :
    block buffer offset (block buffer offset length).length = block buffer offset length := by
  simp only [block, List.length_take]
  rw [← List.take_eq_take_min]

@[simp]
theorem block_zero_length (buffer : List α) : block buffer 0 buffer.length = buffer := by
  simp [block]

@[simp]
theorem block_cons_succ (first : α) (buffer : List α) (offset length : ℕ) :
    block (first :: buffer) (offset + 1) length = block buffer offset length := rfl

/-- A block that starts behind a prefix is a block of the rest. -/
theorem block_append_of_le {front : List α} {offset : ℕ} (behind : front.length ≤ offset)
    (rest : List α) (length : ℕ) :
    block (front ++ rest) offset length = block rest (offset - front.length) length := by
  rw [block, List.drop_append, List.drop_eq_nil_of_le behind, List.nil_append, block]

/-- The block that is exactly a prefix. -/
theorem block_append_front {front : List α} {length : ℕ} (whole : front.length = length)
    (rest : List α) : block (front ++ rest) 0 length = front := by
  rw [block, List.drop_zero, ← whole, List.take_left]

@[simp]
theorem length_overwrite {buffer new : List α} {offset : ℕ}
    (fits : offset + new.length ≤ buffer.length) :
    (overwrite buffer offset new).length = buffer.length := by
  simp only [overwrite, List.length_append, List.length_take, List.length_drop]
  omega

/-- Where an overwritten buffer differs: inside the block it holds the new
entries, elsewhere the old ones. -/
theorem getElem?_overwrite {buffer new : List α} {offset : ℕ}
    (fits : offset + new.length ≤ buffer.length) (k : ℕ) :
    (overwrite buffer offset new)[k]? =
      if offset ≤ k ∧ k < offset + new.length then new[k - offset]? else buffer[k]? := by
  have htake : (buffer.take offset).length = offset := by
    rw [List.length_take]
    omega
  rw [overwrite, List.append_assoc, List.getElem?_append, htake]
  by_cases hlow : k < offset
  · rw [if_pos hlow, if_neg (by omega), List.getElem?_take, if_pos hlow]
  · rw [if_neg hlow, List.getElem?_append]
    by_cases hhigh : k - offset < new.length
    · rw [if_pos hhigh, if_pos (by omega)]
    · rw [if_neg hhigh, if_neg (by omega), List.getElem?_drop]
      congr 1
      omega

/-- Reading the block just written gives what was written. -/
theorem block_overwrite_self {buffer new : List α} {offset : ℕ}
    (fits : offset + new.length ≤ buffer.length) :
    block (overwrite buffer offset new) offset new.length = new := by
  apply List.ext_getElem?
  intro k
  rw [getElem?_block, getElem?_overwrite fits]
  by_cases hk : k < new.length
  · rw [if_pos hk, if_pos (by omega)]
    congr 1
    omega
  · rw [if_neg hk, List.getElem?_eq_none (by omega)]

/-- Two buffers of one length that agree on every block of a partition into
blocks of one size are equal. -/
theorem eq_of_blocks {left right : List α} {size count : ℕ} (positive : 0 < size)
    (same : left.length = right.length) (covered : left.length ≤ count * size)
    (agree : ∀ i < count, block left (i * size) (min size (left.length - i * size)) =
      block right (i * size) (min size (left.length - i * size))) :
    left = right := by
  apply List.ext_getElem?
  intro k
  by_cases hk : k < left.length
  · have hdiv : k / size < count := Nat.div_lt_of_lt_mul (by rw [mul_comm]; omega)
    have hsplit : k / size * size + k % size = k := by
      rw [mul_comm]
      exact Nat.div_add_mod k size
    have hmod := Nat.mod_lt k positive
    have hread := congrArg (fun part => part[k % size]?) (agree _ hdiv)
    simp only [getElem?_block, hsplit] at hread
    rwa [if_pos (by omega), if_pos (by omega)] at hread
  · rw [List.getElem?_eq_none (by omega), List.getElem?_eq_none (by omega)]

/-- A block that is cut off where the buffer ends. -/
theorem block_min (buffer : List α) (offset size : ℕ) :
    block buffer offset (min size (buffer.length - offset)) = block buffer offset size := by
  rw [block, block, ← List.length_drop]
  exact List.take_eq_take_min.symm

/-- The first blocks of one size, one after another, are the front of the buffer. -/
theorem flatten_blocks (buffer : List α) (size count : ℕ) :
    ((List.range count).map fun i => block buffer (i * size) size).flatten =
      buffer.take (count * size) := by
  induction count with
  | zero => rw [Nat.zero_mul, List.take_zero, List.range_zero, List.map_nil, List.flatten_nil]
  | succ count ih =>
      rw [List.range_succ, List.map_append, List.flatten_append, ih, List.map_singleton,
        List.flatten_singleton, Nat.succ_mul, List.take_add, block]

theorem block_replicate {size offset length : ℕ} (fits : offset + length ≤ size) (entry : α) :
    block (List.replicate size entry) offset length = List.replicate length entry := by
  rw [block, List.drop_replicate, List.take_replicate, min_eq_left (by omega)]

/-- A block at the front of a block is a block of the buffer. -/
theorem block_block (buffer : List α) (offset : ℕ) {size length : ℕ} (fits : length ≤ size) :
    block (block buffer offset size) 0 length = block buffer offset length := by
  rw [block, block, List.drop_zero, List.take_take, min_eq_left fits, block]

/-! ## Approaching a target -/

/-- Every entry of `after` is the one of `before` or the one of `target` at its place. -/
def Toward (target before after : List α) : Prop :=
  after.length = before.length ∧ ∀ k : ℕ, after[k]? = before[k]? ∨ after[k]? = target[k]?

theorem toward_refl (target buffer : List α) : Toward target buffer buffer :=
  ⟨rfl, fun _ => .inl rfl⟩

theorem Toward.trans {target first second third : List α} (early : Toward target first second)
    (late : Toward target second third) : Toward target first third := by
  refine ⟨late.1.trans early.1, fun k => ?_⟩
  rcases late.2 k with hkept | hnew
  · rw [hkept]
    exact early.2 k
  · exact .inr hnew

/-- What has reached the target stays there. -/
theorem Toward.eq {target after : List α} (toward : Toward target target after) :
    after = target :=
  List.ext_getElem? fun k => (toward.2 k).elim id id

theorem Toward.part {target before after : List α} (toward : Toward target before after)
    (offset length : ℕ) :
    Toward (block target offset length) (block before offset length)
      (block after offset length) := by
  refine ⟨by rw [length_block, length_block, toward.1], fun k => ?_⟩
  simp only [getElem?_block]
  split
  · exact toward.2 _
  · exact .inl rfl

/-- Overwriting a block that approaches the target's block approaches the target. -/
theorem toward_overwrite {target before new : List α} {offset : ℕ}
    (fits : offset + new.length ≤ before.length)
    (toward : Toward (block target offset new.length) (block before offset new.length) new) :
    Toward target before (overwrite before offset new) := by
  refine ⟨length_overwrite fits, fun k => ?_⟩
  rw [getElem?_overwrite fits]
  split
  · rename_i hinside
    have hk : k - offset < new.length := by omega
    have hread := toward.2 (k - offset)
    rw [getElem?_block, getElem?_block, if_pos hk, if_pos hk,
      show offset + (k - offset) = k by omega] at hread
    exact hread
  · exact .inl rfl

end Buffer
