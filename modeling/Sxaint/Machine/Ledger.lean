/-
# Resources under recycled names

A system hands out resources under names that it may give to another resource once the first is
released. The ledger keeps, beside the names in use, a serial number for every resource, so that a
release through a stale name is told apart from the right one. A list of holders is an exact account
of the ledger if it is a permutation of the names in use; acquiring, using and releasing are rules
on that account.
-/

import Mathlib.Data.List.Perm.Basic
import Mathlib.Data.List.Nodup

universe u

/-- The resources in use and those released. -/
structure Ledger (Name : Type u) where
  /-- Names in use, with the serial numbers of their resources. -/
  live : List (Name × ℕ) := []
  /-- The serial numbers of the released resources, in the order of their release. -/
  released : List ℕ := []
  next : ℕ := 0
  /-- A name was released or used that was not in use. -/
  fault : Bool := false

namespace Ledger

variable {Name : Type u}

def names (ledger : Ledger Name) : List Name :=
  ledger.live.map Prod.fst

def serials (ledger : Ledger Name) : List ℕ :=
  ledger.live.map Prod.snd

/-! ## Accounts -/

/-- The holders are an exact account: every name in use has one, every resource handed out is in use
or was released once, and no name was released or used out of turn. -/
structure Accounts (ledger : Ledger Name) (held : List Name) : Prop where
  names : ledger.names.Perm held
  distinct : ledger.names.Nodup
  serials : (ledger.serials ++ ledger.released).Perm (List.range ledger.next)
  sound : ledger.fault = false

theorem accounts_empty : Accounts ({} : Ledger Name) [] :=
  ⟨.nil, .nil, .nil, rfl⟩

namespace Accounts

variable {ledger : Ledger Name} {held : List Name}

theorem perm (accounts : ledger.Accounts held) {other : List Name} (same : held.Perm other) :
    ledger.Accounts other :=
  { accounts with names := accounts.names.trans same }

theorem nodup (accounts : ledger.Accounts held) : held.Nodup :=
  accounts.names.nodup_iff.mp accounts.distinct

/-- Without holders everything that was handed out was released. -/
theorem released_of_empty (accounts : ledger.Accounts []) :
    ledger.live = [] ∧ ledger.released.Perm (List.range ledger.next) := by
  have hnone : ledger.live = [] := List.map_eq_nil_iff.mp accounts.names.eq_nil
  have hserials := accounts.serials
  rw [Ledger.serials, hnone] at hserials
  exact ⟨hnone, hserials⟩

end Accounts

/-! ## Acquiring and releasing -/

variable [DecidableEq Name]

/-- Hand out a resource; names in use are not handed out. -/
def acquire (ledger : Ledger Name) (name : Name) : Option (Ledger Name) :=
  if name ∈ ledger.names then none
  else some { ledger with live := (name, ledger.next) :: ledger.live, next := ledger.next + 1 }

def use (ledger : Ledger Name) (name : Name) : Ledger Name :=
  if name ∈ ledger.names then ledger else { ledger with fault := true }

def release (ledger : Ledger Name) (name : Name) : Ledger Name :=
  match ledger.live.find? (·.1 = name) with
  | none => { ledger with fault := true }
  | some entry =>
    { ledger with
      live := ledger.live.erase entry
      released := ledger.released ++ [entry.2] }

namespace Accounts

variable {ledger : Ledger Name} {held : List Name} {name : Name}

theorem acquire {next : Ledger Name} (accounts : ledger.Accounts held)
    (taken : ledger.acquire name = some next) : next.Accounts (name :: held) := by
  rw [Ledger.acquire] at taken
  split at taken
  · cases taken
  · rename_i hfree
    cases taken
    refine ⟨accounts.names.cons name, accounts.distinct.cons hfree, ?_, accounts.sound⟩
    rw [List.range_succ]
    exact (accounts.serials.cons ledger.next).trans (List.perm_append_singleton _ _).symm

theorem use (accounts : ledger.Accounts (name :: held)) :
    (ledger.use name).Accounts (name :: held) := by
  rw [Ledger.use, if_pos (accounts.names.mem_iff.mpr List.mem_cons_self)]
  exact accounts

/-- Releasing what is held gives back that resource and no other. -/
theorem release (accounts : ledger.Accounts (name :: held)) :
    (ledger.release name).Accounts held := by
  obtain ⟨entry, hentry, hname⟩ :=
    List.mem_map.mp (accounts.names.mem_iff.mpr (@List.mem_cons_self _ name held))
  obtain ⟨found, hfound⟩ : ∃ found, ledger.live.find? (·.1 = name) = some found := by
    rw [← Option.isSome_iff_exists, List.find?_isSome]
    exact ⟨entry, hentry, decide_eq_true hname⟩
  obtain rfl : found.1 = name := by simpa using List.find?_some hfound
  have hlive : ledger.live.Perm (found :: ledger.live.erase found) :=
    List.perm_cons_erase (List.mem_of_find?_eq_some hfound)
  rw [Ledger.release, hfound]
  refine ⟨?_, ?_, ?_, accounts.sound⟩
  · exact ((hlive.map Prod.fst).symm.trans accounts.names).cons_inv
  · exact accounts.distinct.sublist (List.erase_sublist.map Prod.fst)
  · -- the serial number moves from those in use to the released ones
    have hserials : ledger.serials.Perm (found.2 :: (ledger.live.erase found).map Prod.snd) :=
      hlive.map Prod.snd
    have hmoved : ((ledger.live.erase found).map Prod.snd ++ (ledger.released ++ [found.2])).Perm
        (found.2 :: ((ledger.live.erase found).map Prod.snd ++ ledger.released)) := by
      rw [← List.append_assoc]
      exact List.perm_append_singleton _ _
    exact hmoved.trans ((hserials.append_right _).symm.trans accounts.serials)

end Accounts

end Ledger
