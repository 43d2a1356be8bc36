/-
# First values and last times

A log of records, each with a key, a value and a time. What is known of a key is the value of its
first record and the time of its last one. One more record creates what is known of its key or
moves the time on, and nothing is known of another key by it.
-/

import Mathlib.Data.List.Basic

namespace Registry

universe u v w

variable {κ : Type u} {α : Type v} {τ : Type w}

/-- A value that was recorded for a key at a time. -/
structure Record (κ : Type u) (α : Type v) (τ : Type w) where
  key : κ
  value : α
  time : τ

variable [DecidableEq κ]

/-- The records of a key, in their order. -/
def recordsOf (log : List (Record κ α τ)) (key : κ) : List (Record κ α τ) :=
  log.filter fun record => record.key = key

/-- The value of the first record of a key and the time of the last one. -/
def known (log : List (Record κ α τ)) (key : κ) : Option (α × τ) :=
  (recordsOf log key).head?.bind fun first =>
    (recordsOf log key).getLast?.map fun last => (first.value, last.time)

theorem recordsOf_concat_self (log : List (Record κ α τ)) (record : Record κ α τ) :
    recordsOf (log ++ [record]) record.key = recordsOf log record.key ++ [record] := by
  simp [recordsOf]

theorem recordsOf_concat_of_ne {log : List (Record κ α τ)} {record : Record κ α τ} {key : κ}
    (other : record.key ≠ key) : recordsOf (log ++ [record]) key = recordsOf log key := by
  simp [recordsOf, other]

theorem known_eq_none_iff {log : List (Record κ α τ)} {key : κ} :
    known log key = none ↔ recordsOf log key = [] := by
  rw [known]
  cases recordsOf log key with
  | nil => simp
  | cons first rest => simp [List.getLast?_cons]

/-- A key of which something is known keeps its first record. -/
theorem head?_recordsOf_concat {log : List (Record κ α τ)} (record : Record κ α τ)
    (found : known log record.key ≠ none) :
    (recordsOf (log ++ [record]) record.key).head? = (recordsOf log record.key).head? := by
  rw [recordsOf_concat_self]
  exact List.head?_append_of_ne_nil _ fun hnil => found (known_eq_none_iff.mpr hnil)

/-- The first record of a key creates what is known of it. -/
theorem known_concat_of_new {log : List (Record κ α τ)} {record : Record κ α τ}
    (unknown : known log record.key = none) :
    known (log ++ [record]) record.key = some (record.value, record.time) := by
  rw [known, recordsOf_concat_self, known_eq_none_iff.mp unknown]
  rfl

/-- A later one moves the time on. -/
theorem known_concat_of_known {log : List (Record κ α τ)} (record : Record κ α τ) {value : α}
    {time : τ} (found : known log record.key = some (value, time)) :
    known (log ++ [record]) record.key = some (value, record.time) := by
  rw [known] at found ⊢
  rw [recordsOf_concat_self]
  cases hrecords : recordsOf log record.key with
  | nil =>
      rw [hrecords] at found
      cases found
  | cons first rest =>
      rw [hrecords, List.head?_cons, Option.bind_some] at found
      obtain ⟨last, -, hlast⟩ := Option.map_eq_some_iff.mp found
      obtain rfl : first.value = value := congrArg Prod.fst hlast
      rw [List.getLast?_concat]
      rfl

theorem known_concat_of_ne {log : List (Record κ α τ)} {record : Record κ α τ} {key : κ}
    (other : record.key ≠ key) : known (log ++ [record]) key = known log key := by
  rw [known, recordsOf_concat_of_ne other, known]

end Registry
