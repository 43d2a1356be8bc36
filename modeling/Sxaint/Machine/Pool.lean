/-
# Pools of tasks

A pool is a list in which a task keeps its position: a step replaces the task at
one index and a submission appends one. Invariants about a pool come in four
kinds, about every task, about a condition that at most one task is in, about the
number of tasks in some condition, and about the values that some tasks hold.
Each kind has a rule for one replacement.
-/

import Mathlib.Data.List.Basic
import Mathlib.Data.List.Perm.Subperm

namespace Pool

universe u v

variable {α : Type u} {β : Type v}

/-- Replacing one task keeps a property of all tasks if the new one has it. -/
theorem forall_set {Good : α → Prop} {pool : List α} (good : ∀ task ∈ pool, Good task)
    (index : ℕ) {task : α} (new : Good task) :
    ∀ other ∈ pool.set index task, Good other := by
  intro other hmem
  rcases List.mem_or_eq_of_mem_set hmem with hold | rfl
  · exact good other hold
  · exact new

/-- Submitting a task keeps a property of all tasks if the new one has it. -/
theorem forall_submit {Good : α → Prop} {pool : List α} (good : ∀ task ∈ pool, Good task)
    {task : α} (new : Good task) : ∀ other ∈ pool ++ [task], Good other := by
  intro other hmem
  rcases List.mem_append.mp hmem with hold | hnew
  · exact good other hold
  · rw [List.mem_singleton.mp hnew]
    exact new

/-- A task other than the replaced one stays. -/
theorem mem_set_of_ne {pool : List α} {index : ℕ} {old task : α} (found : pool[index]? = some old)
    (mem : task ∈ pool) (ne : task ≠ old) (new : α) : task ∈ pool.set index new := by
  obtain ⟨j, hread⟩ := List.getElem?_of_mem mem
  have hj : j ≠ index := by
    rintro rfl
    exact ne (Option.some.inj (hread.symm.trans found))
  exact List.mem_of_getElem? ((List.getElem?_set_ne (Ne.symm hj)).trans hread)

/-- A task found after a replacement is the new one at its index, or an old one
elsewhere. -/
theorem getElem?_set_eq_some {pool : List α} {index other : ℕ} {task found : α}
    (read : (pool.set index task)[other]? = some found) :
    (other = index ∧ found = task) ∨ (other ≠ index ∧ pool[other]? = some found) := by
  by_cases hsame : other = index
  · subst hsame
    have hlt : other < pool.length := by
      by_contra hge
      rw [List.getElem?_eq_none (by simpa using hge)] at read
      cases read
    rw [List.getElem?_set_self hlt] at read
    exact .inl ⟨rfl, (Option.some.inj read).symm⟩
  · rw [List.getElem?_set_ne (Ne.symm hsame)] at read
    exact .inr ⟨hsame, read⟩

/-- A task found after a submission is an old one or the new one at the end. -/
theorem getElem?_submit_eq_some {pool : List α} {other : ℕ} {task found : α}
    (read : (pool ++ [task])[other]? = some found) :
    pool[other]? = some found ∨ (other = pool.length ∧ found = task) := by
  rw [List.getElem?_append] at read
  split at read
  · exact .inl read
  · obtain ⟨hzero, heq⟩ := List.getElem?_eq_some_iff.mp read
    simp only [List.length_singleton] at hzero
    exact .inr ⟨by omega, by simpa using heq.symm⟩

/-- At most one task is in a condition. -/
def Single (p : α → Bool) (pool : List α) : Prop :=
  ∀ (i j : ℕ) (first second : α), pool[i]? = some first → pool[j]? = some second →
    p first = true → p second = true → i = j

/-- Two tasks in the condition are one. -/
theorem Single.eq_of_mem {p : α → Bool} {pool : List α} (single : Single p pool)
    {first second : α} (hfirst : first ∈ pool) (hsecond : second ∈ pool) (pfirst : p first = true)
    (psecond : p second = true) : first = second := by
  obtain ⟨i, hi⟩ := List.getElem?_of_mem hfirst
  obtain ⟨j, hj⟩ := List.getElem?_of_mem hsecond
  obtain rfl := single i j first second hi hj pfirst psecond
  exact Option.some.inj (hi.symm.trans hj)

/-- A task that comes into the condition when no task was in it is the only one. -/
theorem single_set_of_none {p : α → Bool} {pool : List α} (none : ∀ task ∈ pool, p task = false)
    (index : ℕ) (task : α) : Single p (pool.set index task) := by
  intro i j first second hfirst hsecond pfirst psecond
  rcases getElem?_set_eq_some hfirst with ⟨hi, -⟩ | ⟨-, hold⟩
  · rcases getElem?_set_eq_some hsecond with ⟨hj, -⟩ | ⟨-, hold⟩
    · exact hi.trans hj.symm
    · rw [none _ (List.mem_of_getElem? hold)] at psecond
      cases psecond
  · rw [none _ (List.mem_of_getElem? hold)] at pfirst
    cases pfirst

/-- Replacing a task that was in the condition leaves room for the new one only. -/
theorem single_set {p : α → Bool} {pool : List α} (single : Single p pool) {index : ℕ} {old : α}
    (found : pool[index]? = some old) {task : α} (kept : p task = true → p old = true) :
    Single p (pool.set index task) := by
  intro i j first second hfirst hsecond pfirst psecond
  rcases getElem?_set_eq_some hfirst with ⟨rfl, rfl⟩ | ⟨-, hi⟩ <;>
    rcases getElem?_set_eq_some hsecond with ⟨rfl, rfl⟩ | ⟨-, hj⟩
  · rfl
  · exact single _ _ _ _ found hj (kept pfirst) psecond
  · exact single _ _ _ _ hi found pfirst (kept psecond)
  · exact single _ _ _ _ hi hj pfirst psecond

/-- Submitting a task that is not in the condition keeps it single. -/
theorem single_submit {p : α → Bool} {pool : List α} (single : Single p pool) {task : α}
    (out : p task = false) : Single p (pool ++ [task]) := by
  intro i j first second hfirst hsecond pfirst psecond
  rcases getElem?_submit_eq_some hfirst with hi | ⟨-, rfl⟩
  · rcases getElem?_submit_eq_some hsecond with hj | ⟨-, rfl⟩
    · exact single _ _ _ _ hi hj pfirst psecond
    · rw [out] at psecond
      cases psecond
  · rw [out] at pfirst
    cases pfirst

/-- When the one task in the condition is replaced, a property of the tasks in the
condition is needed of the new task only. -/
theorem forall_set_of_single {p : α → Bool} {Good : α → Prop} {pool : List α}
    (single : Single p pool) {index : ℕ} {old : α} (found : pool[index]? = some old)
    (held : p old = true) {task : α} (new : p task = true → Good task) :
    ∀ other ∈ pool.set index task, p other = true → Good other := by
  intro other hmem hother
  obtain ⟨j, hread⟩ := List.getElem?_of_mem hmem
  rcases getElem?_set_eq_some hread with ⟨-, rfl⟩ | ⟨hne, hj⟩
  · exact new hother
  · exact (hne (single _ _ _ _ hj found hother held)).elim

/-- The number of tasks in a condition after one replacement. -/
theorem countP_set_add {pool : List α} {index : ℕ} {old : α} (found : pool[index]? = some old)
    (p : α → Bool) (task : α) :
    (pool.set index task).countP p + (if p old then 1 else 0) =
      pool.countP p + (if p task then 1 else 0) := by
  obtain ⟨hlt, rfl⟩ := List.getElem?_eq_some_iff.mp found
  rw [List.countP_set hlt]
  have hpos : (if p pool[index] then 1 else 0) ≤ pool.countP p := by
    split
    · rename_i hp
      exact List.countP_pos_iff.mpr ⟨_, List.getElem_mem hlt, hp⟩
    · exact Nat.zero_le _
  omega

/-- Different positions whose tasks are in a condition are no more than the tasks in it. -/
theorem length_le_countP {p : α → Bool} {pool : List α} {indices : List ℕ}
    (distinct : indices.Nodup)
    (found : ∀ index ∈ indices, ∃ task, pool[index]? = some task ∧ p task = true) :
    indices.length ≤ pool.countP p := by
  have hpositions : (pool.findIdxs p).length = pool.countP p := List.length_findIdxs
  rw [← hpositions]
  refine (distinct.subperm fun index hmem => ?_).length_le
  obtain ⟨task, hread, hp⟩ := found index hmem
  obtain ⟨hlt, rfl⟩ := List.getElem?_eq_some_iff.mp hread
  exact List.mem_findIdxs_iff_exists_getElem_pos.mpr ⟨hlt, hp⟩

/-- Whether some task is in a condition does not change when a task that stays in or
out of it is replaced. -/
theorem any_set {p : α → Bool} {pool : List α} {index : ℕ} {old : α}
    (found : pool[index]? = some old) {task : α} (same : p task = p old) :
    (pool.set index task).any p = pool.any p := by
  induction pool generalizing index with
  | nil => simp at found
  | cons first rest ih =>
      cases index with
      | zero =>
          obtain rfl : first = old := by simpa using found
          simp [same]
      | succ index =>
          have hrest := ih (show rest[index]? = some old by simpa using found)
          simp [hrest]

/-- When a task that held no value comes to hold one, the values held are the old
ones and the new one, up to order. -/
theorem filterMap_set_perm {pool : List α} {index : ℕ} {old : α}
    (found : pool[index]? = some old) (value : α → Option β) (idle : value old = none)
    {task : α} {held : β} (holds : value task = some held) :
    ((pool.set index task).filterMap value).Perm (held :: pool.filterMap value) := by
  induction pool generalizing index with
  | nil => simp at found
  | cons first rest ih =>
      cases index with
      | zero =>
          obtain rfl : first = old := by simpa using found
          simp [idle, holds]
      | succ index =>
          have hrest := ih (show rest[index]? = some old by simpa using found)
          cases hfirst : value first with
          | none => simpa [hfirst] using hrest
          | some kept =>
              simp only [List.set_cons_succ, List.filterMap_cons, hfirst]
              exact (hrest.cons kept).trans (.swap held kept _)

/-- When a task gives up the value it holds, the values held before are the ones held
after and that one, up to order. -/
theorem filterMap_perm_of_released {pool : List α} {index : ℕ} {old : α}
    (found : pool[index]? = some old) (value : α → Option β) {held : β}
    (holds : value old = some held) {task : α} (idle : value task = none) :
    (pool.filterMap value).Perm (held :: (pool.set index task).filterMap value) := by
  obtain ⟨hlt, hread⟩ := List.getElem?_eq_some_iff.mp found
  have hback : (pool.set index task).set index old = pool := by
    rw [List.set_set, ← hread, List.set_getElem_self]
  have hset : (pool.set index task)[index]? = some task := by
    rw [List.getElem?_set_self hlt]
  have hperm := filterMap_set_perm hset value idle holds
  rwa [hback] at hperm

/-- When a task keeps the value it holds, or keeps holding none, the values held
stay as they are. -/
theorem filterMap_set_eq {pool : List α} {index : ℕ} {old : α}
    (found : pool[index]? = some old) (value : α → Option β) {task : α}
    (same : value task = value old) :
    (pool.set index task).filterMap value = pool.filterMap value := by
  induction pool generalizing index with
  | nil => simp at found
  | cons first rest ih =>
      cases index with
      | zero =>
          obtain rfl : first = old := by simpa using found
          simp [List.filterMap_cons, same]
      | succ index =>
          have hrest := ih (show rest[index]? = some old by simpa using found)
          simp [List.filterMap_cons, hrest]

/-- When a task keeps what a function reads from it, the values read stay as they are. -/
theorem map_set_eq {pool : List α} {index : ℕ} {old : α} (found : pool[index]? = some old)
    (value : α → β) {task : α} (same : value task = value old) :
    (pool.set index task).map value = pool.map value := by
  have hsame := filterMap_set_eq found (fun task => some (value task)) (congrArg some same)
  simpa using hsame

/-- If a task holds the value of another reading of it or none, the values held are among
those of the other reading. -/
theorem filterMap_sublist {pool : List α} {value other : α → Option β}
    (weaker : ∀ task ∈ pool, value task = none ∨ value task = other task) :
    (pool.filterMap value).Sublist (pool.filterMap other) := by
  induction pool with
  | nil => exact List.Sublist.refl _
  | cons task rest ih =>
      have hrest := ih fun task hmem => weaker task (List.mem_cons_of_mem _ hmem)
      rcases weaker task List.mem_cons_self with hnone | hsame
      · rw [List.filterMap_cons_none hnone]
        cases hother : other task with
        | none => rwa [List.filterMap_cons_none hother]
        | some held =>
            rw [List.filterMap_cons_some hother]
            exact hrest.cons held
      · cases hother : other task with
        | none =>
            rwa [List.filterMap_cons_none (hsame.trans hother), List.filterMap_cons_none hother]
        | some held =>
            rw [List.filterMap_cons_some (hsame.trans hother), List.filterMap_cons_some hother]
            exact hrest.cons_cons held

/-- Where one task holds no value, there are fewer values than tasks. -/
theorem length_filterMap_lt {pool : List α} {idle : α} (mem : idle ∈ pool)
    {value : α → Option β} (none : value idle = none) :
    (pool.filterMap value).length < pool.length := by
  refine Nat.lt_of_le_of_ne (List.length_filterMap_le _ _) fun hfull => ?_
  have hsome := List.filterMap_length_eq_length.mp hfull idle mem
  rw [none] at hsome
  cases hsome

/-- If there is at most one value less than tasks, every task but an idle one holds one. -/
theorem isSome_of_length_filterMap [DecidableEq α] {pool : List α} {idle : α} (mem : idle ∈ pool)
    {value : α → Option β} (none : value idle = none)
    (full : pool.length ≤ (pool.filterMap value).length + 1) {task : α} (other : task ∈ pool)
    (ne : task ≠ idle) : (value task).isSome = true := by
  have hperm := List.perm_cons_erase mem
  have hlength := (hperm.filterMap value).length_eq
  rw [List.filterMap_cons_none none] at hlength
  have hall : ((pool.erase idle).filterMap value).length = (pool.erase idle).length := by
    have hle := List.length_filterMap_le value (pool.erase idle)
    have hcons := hperm.length_eq
    rw [List.length_cons] at hcons
    omega
  exact List.filterMap_length_eq_length.mp hall task ((List.mem_erase_of_ne ne).mpr other)

/-- If every task but idle ones holds a value, only the idle ones are missing. -/
theorem length_le_length_filterMap_add [DecidableEq α] {pool : List α} {idle : α}
    {value : α → Option β}
    (holds : ∀ task ∈ pool, task ≠ idle → (value task).isSome = true) :
    pool.length ≤ (pool.filterMap value).length + pool.count idle := by
  rw [List.length_filterMap_eq_countP,
    List.length_eq_countP_add_countP (fun task => (value task).isSome)]
  refine Nat.add_le_add_left (List.countP_mono_left fun task hmem hnone => ?_) _
  by_cases hidle : task = idle
  · simp [hidle]
  · simp [holds task hmem hidle] at hnone

/-- Tasks in a condition that fixes the value they hold are no more than its
occurrences. -/
theorem countP_le_count_filterMap [DecidableEq β] {pool : List α} {p : α → Bool}
    {value : α → Option β} {held : β}
    (holds : ∀ task ∈ pool, p task = true → value task = some held) :
    pool.countP p ≤ (pool.filterMap value).count held := by
  rw [List.count, List.countP_filterMap]
  refine List.countP_mono_left fun task hmem hp => ?_
  simp [holds task hmem hp]

end Pool
