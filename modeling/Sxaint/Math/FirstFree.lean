/-
# The first free index

A search tries the indices in turn and stops at the first one that no entry of a finite list
claims. If an entry claims one index at most, as many tries as there are entries and one more are
enough.
-/

import Mathlib.Data.Fintype.EquivFin
import Mathlib.Data.Nat.Find

universe u

namespace FirstFree

variable {Entry : Type u} {claims : Entry → ℕ → Prop} {entries : List Entry}

/-- Some entry claims the index. -/
def Taken (claims : Entry → ℕ → Prop) (entries : List Entry) (index : ℕ) : Prop :=
  ∃ entry ∈ entries, claims entry index

/-- An index is not claimed, and all before it are. -/
structure IsFirst (claims : Entry → ℕ → Prop) (entries : List Entry) (index : ℕ) : Prop where
  free : ¬ Taken claims entries index
  taken : ∀ earlier < index, Taken claims entries earlier

/-- Two indices that are claimed from the same place of the list are equal, so the list is as long
as there are claimed indices in a row. -/
theorem le_length_of_taken (single : ∀ entry ∈ entries, ∀ first second,
      claims entry first → claims entry second → first = second) {bound : ℕ}
    (taken : ∀ index < bound, Taken claims entries index) : bound ≤ entries.length := by
  have hplace : ∀ index : Fin bound, ∃ place : Fin entries.length,
      claims (entries.get place) index := by
    intro index
    obtain ⟨entry, hmem, hclaims⟩ := taken index index.isLt
    obtain ⟨place, rfl⟩ := List.get_of_mem hmem
    exact ⟨place, hclaims⟩
  choose place hclaims using hplace
  have hinjective : Function.Injective place := by
    intro first second heq
    apply Fin.ext
    apply single _ (List.get_mem entries (place first)) _ _ (hclaims first)
    rw [heq]
    exact hclaims second
  have hcard := Fintype.card_le_of_injective place hinjective
  rwa [Fintype.card_fin, Fintype.card_fin] at hcard

/-- There is a first free index, and it is no greater than the number of entries. -/
theorem exists_isFirst (single : ∀ entry ∈ entries, ∀ first second,
      claims entry first → claims entry second → first = second) :
    ∃ index ≤ entries.length, IsFirst claims entries index := by
  classical
  have hfree : ∃ index, ¬ Taken claims entries index := by
    by_contra hall
    have htaken : ∀ index < entries.length + 1, Taken claims entries index :=
      fun index _ => not_not.mp fun hfree => hall ⟨index, hfree⟩
    exact Nat.not_succ_le_self _ (le_length_of_taken single htaken)
  have hfirst : IsFirst claims entries (Nat.find hfree) :=
    ⟨Nat.find_spec hfree, fun earlier hlt => not_not.mp (Nat.find_min hfree hlt)⟩
  exact ⟨_, le_length_of_taken single hfirst.taken, hfirst⟩

end FirstFree
