/-
# Exactly-once execution

Until a pool is shut down it neither loses nor duplicates a task, and it takes the tasks
in the order in which they were pushed. Three invariants carry this. The history is
consistent: what was pushed is what was popped and what is queued, and a popped task is run
or in the hands of the worker that popped it. The permits are accounted for: each task in
the queue has a permit in the semaphore, with a worker that has not used it, or still to be
released by the call that pushed the task. And the counter of queued tasks is off by at
most the one access that the owner of the mutex has still to make.
-/

import Mathlib.Data.List.Nodup
import Sxaint.Core.ThreadPool
import Sxaint.Machine.Mutex

namespace Sxaint.Core

open Transition

/-- A permit is taken and not used. -/
def Worker.permitted {α : Type} (worker : Worker α) : Bool :=
  match worker.pc with
  | .test => true
  | .lock => true
  | .locked => true
  | _ => false

/-- Inside the section under the mutex. -/
def Worker.critical {α : Type} (worker : Worker α) : Bool :=
  match worker.pc with
  | .locked => true
  | .uncount _ => true
  | .unlock _ => true
  | _ => false

/-- A task is popped and not subtracted from the counter. -/
def Worker.uncounted {α : Type} (worker : Worker α) : Bool :=
  match worker.pc with
  | .uncount _ => true
  | _ => false

/-- The task that was popped and not run. -/
def Worker.held {α : Type} (worker : Worker α) : Option (PackagedTask α) :=
  match worker.pc with
  | .uncount task => some task
  | .unlock task => some task
  | .start task => some task
  | .run task => some task
  | _ => none

/-- The task is in the queue or was. -/
def Submission.pushed {α : Type} (submission : Submission α) : Bool :=
  match submission.pc with
  | .count => true
  | .unlock => true
  | .release => true
  | .returned => true
  | _ => false

/-- The task is pushed and its permit not released. -/
def Submission.owing {α : Type} (submission : Submission α) : Bool :=
  match submission.pc with
  | .count => true
  | .unlock => true
  | .release => true
  | _ => false

/-- Inside the section under the mutex. -/
def Submission.critical {α : Type} (submission : Submission α) : Bool :=
  match submission.pc with
  | .locked => true
  | .push => true
  | .count => true
  | .unlock => true
  | _ => false

/-- The task is pushed and not added to the counter. -/
def Submission.uncounted {α : Type} (submission : Submission α) : Bool :=
  match submission.pc with
  | .count => true
  | _ => false

theorem Worker.critical_of_uncounted {α : Type} (worker : Worker α)
    (uncounted : worker.uncounted = true) : worker.critical = true := by
  obtain ⟨pc, stop⟩ := worker
  cases pc with
  | uncount _ => rfl
  | _ => cases uncounted

theorem Submission.critical_of_uncounted {α : Type} (submission : Submission α)
    (uncounted : submission.uncounted = true) : submission.critical = true := by
  obtain ⟨body, pc⟩ := submission
  cases pc with
  | count => rfl
  | _ => cases uncounted

namespace ThreadPool

variable {α : Type}

/-- A thread is inside a section under the mutex. -/
def InSection (p : ThreadPool α) : Owner → Prop
  | .worker index => ∃ worker, p.workers[index]? = some worker ∧ worker.critical = true
  | .submit call => ∃ submission, p.submits[call]? = some submission ∧
      submission.critical = true

/-! ## The history -/

/-- What was pushed, popped and run, and what is queued and held, is the same. -/
structure Recorded (p : ThreadPool α) : Prop where
  order : p.popped.map Prod.snd ++ p.tasks = p.pushed
  pushed : ∀ task, task ∈ p.pushed ↔ ∃ submission, p.submits[task.call]? = some submission ∧
    submission.body = task.body ∧ submission.pushed = true
  distinct : (p.pushed.map PackagedTask.call).Nodup
  assigned : (p.ran.map Prod.snd ++ p.workers.filterMap Worker.held).Perm
    (p.popped.map Prod.snd)
  ran : ∀ entry ∈ p.ran, entry ∈ p.popped
  held : ∀ index worker task, p.workers[index]? = some worker → worker.held = some task →
    (index, task) ∈ p.popped

/-- A worker takes a step in which it holds what it held. -/
theorem recorded_hold {index : ℕ} {worker after : Worker α}
    {p v : ThreadPool α} (inv : Recorded p) (found : p.workers[index]? = some worker)
    (frame : Frame p v) (tasks : v.tasks = p.tasks) (pushed : v.pushed = p.pushed)
    (popped : v.popped = p.popped) (ran : v.ran = p.ran) (same : after.held = worker.held) :
    Recorded { v with workers := v.workers.set index after } := by
  refine ⟨?_, ?_, ?_, ?_, ?_, ?_⟩
  · simp only [popped, tasks, pushed]
    exact inv.order
  · simp only [pushed, frame.submits]
    exact inv.pushed
  · simp only [pushed]
    exact inv.distinct
  · simp only [ran, popped, frame.workers]
    rw [Pool.filterMap_set_eq found Worker.held same]
    exact inv.assigned
  · simp only [ran, popped]
    exact inv.ran
  · intro other found' task hread hheld
    simp only [frame.workers] at hread
    simp only [popped]
    rcases Pool.getElem?_set_eq_some hread with ⟨rfl, rfl⟩ | ⟨-, hold⟩
    · exact inv.held _ _ _ found (same ▸ hheld)
    · exact inv.held _ _ _ hold hheld

/-- The step of a worker. -/
private theorem recorded_worker {index : ℕ} {worker : Worker α} {next : WorkerPc α}
    {p v : ThreadPool α} (inv : Recorded p) (found : p.workers[index]? = some worker)
    (taken : WorkerStep index worker.stop p worker.pc next v) :
    Recorded { v with workers := v.workers.set index { worker with pc := next } } := by
  obtain ⟨pc, stop⟩ := worker
  have hframe := frame_of_workerStep taken
  cases taken with
  | @popped task rest front =>
      have hset := Pool.filterMap_set_perm found Worker.held rfl
        (show Worker.held { pc := .uncount task, stop := stop } = some task from rfl)
      refine ⟨?_, inv.pushed, inv.distinct, ?_, ?_, ?_⟩
      · simp only [List.map_append, List.map_cons, List.map_nil, List.append_assoc,
          List.cons_append, List.nil_append]
        rw [← front]
        exact inv.order
      · simp only [List.map_append, List.map_cons, List.map_nil]
        refine (hset.append_left _).trans ?_
        refine List.perm_middle.trans ?_
        exact (inv.assigned.cons task).trans (List.perm_append_singleton _ _).symm
      · intro entry hmem
        exact List.mem_append_left _ (inv.ran entry hmem)
      · intro other found' task' hread hheld
        rcases Pool.getElem?_set_eq_some hread with ⟨rfl, rfl⟩ | ⟨-, hold⟩
        · cases hheld
          exact List.mem_append_right _ (List.mem_singleton_self _)
        · exact List.mem_append_left _ (inv.held _ _ _ hold hheld)
  | @ran task =>
      have hset := Pool.filterMap_perm_of_released found Worker.held rfl
        (show Worker.held { pc := WorkerPc.finish, stop := stop } = (none : Option (PackagedTask α))
          from rfl)
      have hmine := inv.held _ _ task found rfl
      refine ⟨inv.order, inv.pushed, inv.distinct, ?_, ?_, ?_⟩
      · simp only [List.map_append, List.map_cons, List.map_nil, List.append_assoc,
          List.cons_append, List.nil_append]
        exact (hset.append_left _).symm.trans inv.assigned
      · intro entry hmem
        rcases List.mem_append.mp hmem with hold | hnew
        · exact inv.ran entry hold
        · rw [List.mem_singleton.mp hnew]
          exact hmine
      · intro other found' task' hread hheld
        rcases Pool.getElem?_set_eq_some hread with ⟨rfl, rfl⟩ | ⟨-, hold⟩
        · cases hheld
        · exact inv.held _ _ _ hold hheld
  | stopped _ | looped _ | quit _ _ | tested _ | finished | acquired _ | locked _ | starved _
  | uncounted | unlocked | started => exact recorded_hold inv found hframe rfl rfl rfl rfl rfl

/-- What was pushed is a matter of the calls that are past the push. -/
private theorem pushed_set {call : ℕ} {submission : Submission α} {next : SubmitPc}
    {p : ThreadPool α} (inv : Recorded p) (found : p.submits[call]? = some submission)
    (same : Submission.pushed { submission with pc := next } = submission.pushed)
    (task : PackagedTask α) :
    task ∈ p.pushed ↔ ∃ other, (p.submits.set call { submission with pc := next })[task.call]? =
      some other ∧ other.body = task.body ∧ other.pushed = true := by
  obtain ⟨hlt, -⟩ := List.getElem?_eq_some_iff.mp found
  rw [inv.pushed task]
  constructor
  · rintro ⟨other, hread, hbody, hpushed⟩
    by_cases hcall : task.call = call
    · rw [hcall] at hread ⊢
      obtain rfl := Option.some.inj (hread.symm.trans found)
      exact ⟨_, List.getElem?_set_self hlt, hbody, same.trans hpushed⟩
    · exact ⟨other, (List.getElem?_set_ne (Ne.symm hcall)).trans hread, hbody, hpushed⟩
  · rintro ⟨other, hread, hbody, hpushed⟩
    rcases Pool.getElem?_set_eq_some hread with ⟨hcall, rfl⟩ | ⟨-, hold⟩
    · exact ⟨submission, hcall ▸ found, hbody, same ▸ hpushed⟩
    · exact ⟨other, hold, hbody, hpushed⟩

/-- A call of `submit` takes a step in which it pushes nothing. -/
private theorem recorded_quiet {call : ℕ} {submission : Submission α} {next : SubmitPc}
    {p v : ThreadPool α} (inv : Recorded p) (found : p.submits[call]? = some submission)
    (frame : Frame p v) (tasks : v.tasks = p.tasks) (pushed : v.pushed = p.pushed)
    (popped : v.popped = p.popped) (ran : v.ran = p.ran)
    (same : Submission.pushed { submission with pc := next } = submission.pushed) :
    Recorded { v with submits := v.submits.set call { submission with pc := next } } := by
  refine ⟨?_, ?_, ?_, ?_, ?_, ?_⟩
  · simp only [popped, tasks, pushed]
    exact inv.order
  · simp only [pushed, frame.submits]
    exact pushed_set inv found same
  · simp only [pushed]
    exact inv.distinct
  · simp only [ran, popped, frame.workers]
    exact inv.assigned
  · simp only [ran, popped]
    exact inv.ran
  · simp only [popped, frame.workers]
    exact inv.held

/-- The step of a call of `submit`. -/
private theorem recorded_submit {call : ℕ} {submission : Submission α} {next : SubmitPc}
    {p v : ThreadPool α} (inv : Recorded p) (found : p.submits[call]? = some submission)
    (taken : SubmitStep call submission.body p submission.pc next v) :
    Recorded { v with submits := v.submits.set call { submission with pc := next } } := by
  obtain ⟨body, pc⟩ := submission
  have hframe := frame_of_submitStep taken
  cases taken with
  | pushed =>
      obtain ⟨hlt, -⟩ := List.getElem?_eq_some_iff.mp found
      -- the call has not pushed before, so no pushed task carries its number
      have hfresh : call ∉ p.pushed.map PackagedTask.call := by
        intro hmem
        obtain ⟨task, htask, rfl⟩ := List.mem_map.mp hmem
        obtain ⟨other, hread, -, hpushed⟩ := (inv.pushed task).mp htask
        obtain rfl := Option.some.inj (hread.symm.trans found)
        cases hpushed
      refine ⟨?_, fun task => ?_, ?_, inv.assigned, inv.ran, inv.held⟩
      · rw [← List.append_assoc, inv.order]
      · rw [List.mem_append, List.mem_singleton]
        constructor
        · rintro (hold | rfl)
          · obtain ⟨other, hread, hrest⟩ := (inv.pushed task).mp hold
            have hne : task.call ≠ call := by
              intro hcall
              exact hfresh (hcall ▸ List.mem_map_of_mem hold)
            exact ⟨other, (List.getElem?_set_ne (Ne.symm hne)).trans hread, hrest⟩
          · exact ⟨_, List.getElem?_set_self hlt, rfl, rfl⟩
        · rintro ⟨other, hread, hbody, hpushed⟩
          rcases Pool.getElem?_set_eq_some hread with ⟨hcall, rfl⟩ | ⟨-, hold⟩
          · apply Or.inr
            obtain ⟨number, body'⟩ := task
            obtain rfl : number = call := hcall
            obtain rfl : body = body' := hbody
            rfl
          · exact .inl ((inv.pushed task).mpr ⟨other, hold, hbody, hpushed⟩)
      · rw [List.map_append]
        apply inv.distinct.append (List.nodup_singleton _)
        rw [List.disjoint_singleton]
        exact hfresh
  | locked _ | refused _ | tested _ | counted | unlocked | released =>
      exact recorded_quiet inv found hframe rfl rfl rfl rfl rfl

/-- A new call of `submit`. -/
private theorem recorded_call {body : α} {p : ThreadPool α} (inv : Recorded p) :
    Recorded { p with submits := p.submits ++ [{ body := body }] } := by
  refine ⟨inv.order, fun task => ?_, inv.distinct, inv.assigned, inv.ran, inv.held⟩
  rw [inv.pushed task]
  constructor
  · rintro ⟨other, hread, hrest⟩
    obtain ⟨hlt, -⟩ := List.getElem?_eq_some_iff.mp hread
    exact ⟨other, (List.getElem?_append_left hlt).trans hread, hrest⟩
  · rintro ⟨other, hread, hbody, hpushed⟩
    rcases Pool.getElem?_submit_eq_some hread with hold | ⟨-, rfl⟩
    · exact ⟨other, hold, hbody, hpushed⟩
    · cases hpushed

theorem recorded_step {event : PoolEvent α} {p p' : ThreadPool α} (inv : Recorded p)
    (taken : Step p event p') : Recorded p' := by
  cases taken with
  | call => exact recorded_call inv
  | submit found taken => exact recorded_submit inv found taken
  | worker found taken => exact recorded_worker inv found taken

/-! ## The permits -/

/-- Every queued task has one permit. -/
def Accounted (p : ThreadPool α) : Prop :=
  p.permits + p.workers.countP Worker.permitted +
    p.submits.countP Submission.owing = p.tasks.length

/-- A worker with an unused permit finds a task. -/
theorem Accounted.tasks_ne_nil {p : ThreadPool α} (inv : Accounted p) {index : ℕ}
    {worker : Worker α} (found : p.workers[index]? = some worker)
    (permitted : worker.permitted = true) : p.tasks ≠ [] := by
  have hpos : 0 < p.workers.countP Worker.permitted :=
    List.countP_pos_iff.mpr ⟨worker, List.mem_of_getElem? found, permitted⟩
  rw [Accounted] at inv
  intro hempty
  rw [hempty, List.length_nil] at inv
  omega

/-- The step of a worker. -/
private theorem accounted_worker {index : ℕ} {worker : Worker α} {next : WorkerPc α}
    {p v : ThreadPool α} (inv : Accounted p)
    (found : p.workers[index]? = some worker)
    (taken : WorkerStep index worker.stop p worker.pc next v) :
    Accounted { v with workers := v.workers.set index { worker with pc := next } } := by
  obtain ⟨pc, stop⟩ := worker
  have hcount := Pool.countP_set_add found Worker.permitted
    { pc := next, stop := stop }
  have hfind := inv.tasks_ne_nil found
  rw [Accounted] at inv ⊢
  cases taken with
  | acquired available =>
      simp only [Worker.permitted, if_true, Bool.false_eq_true, if_false] at hcount ⊢
      omega
  | quit _ empty | starved empty => exact (hfind rfl empty).elim
  | popped front =>
      rw [front, List.length_cons] at inv
      simp only [Worker.permitted, if_true, Bool.false_eq_true, if_false] at hcount ⊢
      omega
  | stopped _ | looped _ | tested _ | locked _ | uncounted | unlocked | started | ran | finished =>
      simp only [Worker.permitted, if_true, Bool.false_eq_true, if_false] at hcount ⊢
      omega

/-- The step of a call of `submit`. -/
private theorem accounted_submit {call : ℕ} {submission : Submission α} {next : SubmitPc}
    {p v : ThreadPool α} (inv : Accounted p) (found : p.submits[call]? = some submission)
    (taken : SubmitStep call submission.body p submission.pc next v) :
    Accounted { v with submits := v.submits.set call { submission with pc := next } } := by
  obtain ⟨body, pc⟩ := submission
  have hcount := Pool.countP_set_add found Submission.owing
    { body := body, pc := next }
  rw [Accounted] at inv ⊢
  cases taken with
  | pushed =>
      simp only [Submission.owing, List.length_append, List.length_singleton, if_true,
        Bool.false_eq_true, if_false] at hcount ⊢
      omega
  | locked _ | refused _ | tested _ | counted | unlocked | released =>
      simp only [Submission.owing, if_true, Bool.false_eq_true, if_false] at hcount ⊢
      omega

theorem accounted_step {event : PoolEvent α} {p p' : ThreadPool α} (inv : Accounted p)
    (taken : Step p event p') : Accounted p' := by
  cases taken with
  | call =>
      rw [Accounted] at inv ⊢
      rw [List.countP_append]
      exact inv
  | submit found taken => exact accounted_submit inv found taken
  | worker found taken => exact accounted_worker inv found taken

/-! ## The counter -/

/-- The owner of the mutex is inside its section, and the counter is off by the accesses
that are still to be made there. -/
structure Guarded (p : ThreadPool α) : Prop where
  exclusive : Mutex.Exclusive p.queueMutex p.InSection
  balance : p.queuedTasks + p.submits.countP Submission.uncounted =
    p.tasks.length + p.workers.countP Worker.uncounted

/-- While the mutex is free the counter is right. -/
theorem Guarded.queuedTasks_eq {p : ThreadPool α} (inv : Guarded p) (free : p.queueMutex = none) :
    p.queuedTasks = p.tasks.length := by
  have hexclusive := inv.exclusive
  rw [free] at hexclusive
  have hworkers : p.workers.countP Worker.uncounted = 0 := by
    rw [List.countP_eq_zero]
    intro worker hmem huncounted
    obtain ⟨index, hread⟩ := List.getElem?_of_mem hmem
    apply hexclusive.not_inside (.worker index)
    exact ⟨worker, hread, worker.critical_of_uncounted huncounted⟩
  have hsubmits : p.submits.countP Submission.uncounted = 0 := by
    rw [List.countP_eq_zero]
    intro submission hmem huncounted
    obtain ⟨call, hread⟩ := List.getElem?_of_mem hmem
    apply hexclusive.not_inside (.submit call)
    exact ⟨submission, hread, submission.critical_of_uncounted huncounted⟩
  have hbalance := inv.balance
  omega

/-- Who is inside after a worker's step. -/
private theorem inSection_worker {index : ℕ} {worker : Worker α} {next : WorkerPc α}
    {p v : ThreadPool α} (frame : Frame p v) {owner : Owner}
    (inside :
      InSection { v with workers := v.workers.set index { worker with pc := next } } owner) :
    owner = .worker index ∧ Worker.critical { worker with pc := next } = true ∨
      owner ≠ .worker index ∧ p.InSection owner := by
  cases owner with
  | worker other =>
      obtain ⟨found, hread, hcritical⟩ := inside
      simp only [frame.workers] at hread
      rcases Pool.getElem?_set_eq_some hread with ⟨rfl, rfl⟩ | ⟨hne, hold⟩
      · exact .inl ⟨rfl, hcritical⟩
      · refine .inr ⟨?_, found, hold, hcritical⟩
        intro hsame
        exact hne (Owner.worker.inj hsame)
  | submit call =>
      obtain ⟨found, hread, hcritical⟩ := inside
      simp only [frame.submits] at hread
      exact .inr ⟨Owner.noConfusion, found, hread, hcritical⟩

/-- Who is inside after a step of a call of `submit`. -/
private theorem inSection_submit {call : ℕ} {submission : Submission α} {next : SubmitPc}
    {p v : ThreadPool α} (frame : Frame p v) {owner : Owner}
    (inside : InSection
      { v with submits := v.submits.set call { submission with pc := next } } owner) :
    owner = .submit call ∧ Submission.critical { submission with pc := next } = true ∨
      owner ≠ .submit call ∧ p.InSection owner := by
  cases owner with
  | submit other =>
      obtain ⟨found, hread, hcritical⟩ := inside
      simp only [frame.submits] at hread
      rcases Pool.getElem?_set_eq_some hread with ⟨rfl, rfl⟩ | ⟨hne, hold⟩
      · exact .inl ⟨rfl, hcritical⟩
      · refine .inr ⟨?_, found, hold, hcritical⟩
        intro hsame
        exact hne (Owner.submit.inj hsame)
  | worker index =>
      obtain ⟨found, hread, hcritical⟩ := inside
      simp only [frame.workers] at hread
      exact .inr ⟨Owner.noConfusion, found, hread, hcritical⟩

/-- The mutex after a worker's step. -/
private theorem exclusive_worker {index : ℕ} {worker : Worker α} {next : WorkerPc α}
    {p v : ThreadPool α} (inv : Mutex.Exclusive p.queueMutex p.InSection)
    (found : p.workers[index]? = some worker)
    (taken : WorkerStep index worker.stop p worker.pc next v) :
    Mutex.Exclusive v.queueMutex
      (InSection { v with workers := v.workers.set index { worker with pc := next } }) := by
  obtain ⟨pc, stop⟩ := worker
  have hframe := frame_of_workerStep taken
  have hmoves : Mutex.Moves (.worker index)
      (Worker.critical { pc := next, stop := stop } = true) p.InSection
      (InSection { v with workers := v.workers.set index { pc := next, stop := stop } }) :=
    fun owner => @inSection_worker α index ⟨pc, stop⟩ next p v hframe owner
  have hheld (held : Worker.critical { pc := pc, stop := stop } = true) :
      p.InSection (.worker index) := ⟨_, found, held⟩
  cases taken with
  | locked free =>
      rw [free] at inv
      exact hmoves.enter inv
  | starved _ => exact hmoves.leave inv (hheld rfl) nofun
  | unlocked => exact hmoves.leave inv (hheld rfl) nofun
  | stopped _ | looped _ | acquired _ | quit _ _ | tested _ | popped _ | uncounted | started | ran
  | finished => exact hmoves.stay inv (by first | exact fun _ => hheld rfl | exact nofun)

/-- The mutex after a step of a call of `submit`. -/
private theorem exclusive_submit {call : ℕ} {submission : Submission α} {next : SubmitPc}
    {p v : ThreadPool α} (inv : Mutex.Exclusive p.queueMutex p.InSection)
    (found : p.submits[call]? = some submission)
    (taken : SubmitStep call submission.body p submission.pc next v) :
    Mutex.Exclusive v.queueMutex
      (InSection { v with submits := v.submits.set call { submission with pc := next } }) := by
  obtain ⟨body, pc⟩ := submission
  have hframe := frame_of_submitStep taken
  have hmoves : Mutex.Moves (.submit call)
      (Submission.critical { body := body, pc := next } = true) p.InSection
      (InSection { v with submits := v.submits.set call { body := body, pc := next } }) :=
    fun owner => @inSection_submit α call ⟨body, pc⟩ next p v hframe owner
  have hheld (held : Submission.critical { body := body, pc := pc } = true) :
      p.InSection (.submit call) := ⟨_, found, held⟩
  cases taken with
  | locked free =>
      rw [free] at inv
      exact hmoves.enter inv
  | refused _ => exact hmoves.leave inv (hheld rfl) nofun
  | unlocked => exact hmoves.leave inv (hheld rfl) nofun
  | tested _ | pushed | counted => exact hmoves.stay inv fun _ => hheld rfl
  | released => exact hmoves.stay inv nofun

/-- A worker that has popped a task and not counted it finds the counter above zero. -/
private theorem queuedTasks_pos {index : ℕ} {worker : Worker α} {p : ThreadPool α}
    (inv : Guarded p) (found : p.workers[index]? = some worker)
    (uncounted : worker.uncounted = true) : 0 < p.queuedTasks := by
  have hinside : p.InSection (.worker index) :=
    ⟨worker, found, worker.critical_of_uncounted uncounted⟩
  have hsubmits : p.submits.countP Submission.uncounted = 0 := by
    rw [List.countP_eq_zero]
    intro submission hmem hcount
    obtain ⟨call, hread⟩ := List.getElem?_of_mem hmem
    have hother : p.InSection (.submit call) :=
      ⟨submission, hread, submission.critical_of_uncounted hcount⟩
    cases inv.exclusive.eq_owner hinside hother
  have hpos : 0 < p.workers.countP Worker.uncounted :=
    List.countP_pos_iff.mpr ⟨worker, List.mem_of_getElem? found, uncounted⟩
  have hbalance := inv.balance
  omega

/-- The step of a worker. -/
private theorem guarded_worker {index : ℕ} {worker : Worker α} {next : WorkerPc α}
    {p v : ThreadPool α} (inv : Guarded p) (found : p.workers[index]? = some worker)
    (taken : WorkerStep index worker.stop p worker.pc next v) :
    Guarded { v with workers := v.workers.set index { worker with pc := next } } := by
  refine ⟨exclusive_worker inv.exclusive found taken, ?_⟩
  have hbalance := inv.balance
  have hpositive := queuedTasks_pos inv found
  obtain ⟨pc, stop⟩ := worker
  have hcount := Pool.countP_set_add found Worker.uncounted { pc := next, stop := stop }
  cases taken with
  | popped front =>
      rw [front, List.length_cons] at hbalance
      simp only [Worker.uncounted, if_true, Bool.false_eq_true, if_false] at hcount ⊢
      omega
  | uncounted =>
      have hpos := hpositive rfl
      simp only [Worker.uncounted, if_true, Bool.false_eq_true, if_false] at hcount ⊢
      omega
  | stopped _ | looped _ | acquired _ | quit _ _ | tested _ | locked _ | starved _ | unlocked
  | started | ran | finished =>
      simp only [Worker.uncounted, Bool.false_eq_true, if_false] at hcount ⊢
      omega

/-- The step of a call of `submit`. -/
private theorem guarded_submit {call : ℕ} {submission : Submission α} {next : SubmitPc}
    {p v : ThreadPool α} (inv : Guarded p) (found : p.submits[call]? = some submission)
    (taken : SubmitStep call submission.body p submission.pc next v) :
    Guarded { v with submits := v.submits.set call { submission with pc := next } } := by
  refine ⟨exclusive_submit inv.exclusive found taken, ?_⟩
  have hbalance := inv.balance
  obtain ⟨body, pc⟩ := submission
  have hcount := Pool.countP_set_add found Submission.uncounted { body := body, pc := next }
  cases taken with
  | pushed | counted =>
      simp only [Submission.uncounted, List.length_append, List.length_singleton, if_true,
        Bool.false_eq_true, if_false] at hcount ⊢
      omega
  | locked _ | refused _ | tested _ | unlocked | released =>
      simp only [Submission.uncounted, Bool.false_eq_true, if_false] at hcount ⊢
      omega

theorem guarded_step {event : PoolEvent α} {p p' : ThreadPool α} (inv : Guarded p)
    (taken : Step p event p') : Guarded p' := by
  cases taken with
  | @call body =>
      refine ⟨?_, ?_⟩
      · apply inv.exclusive.stay
        intro owner hafter
        cases owner with
        | worker index => exact hafter
        | submit call =>
            obtain ⟨submission, hread, hcritical⟩ := hafter
            rcases Pool.getElem?_submit_eq_some hread with hold | ⟨-, rfl⟩
            · exact ⟨submission, hold, hcritical⟩
            · cases hcritical
      · rw [List.countP_append]
        exact inv.balance
  | submit found taken => exact guarded_submit inv found taken
  | worker found taken => exact guarded_worker inv found taken

/-! ## Until the shutdown -/

/-- The invariant of a pool that is not shut down. -/
structure Consistent (p : ThreadPool α) : Prop where
  recorded : Recorded p
  accounted : Accounted p
  guarded : Guarded p

theorem consistent_create (threads hardwareConcurrency : ℕ) :
    Consistent (create threads hardwareConcurrency : ThreadPool α) := by
  have hworker : ∀ worker ∈ (create threads hardwareConcurrency : ThreadPool α).workers,
      worker = {} := fun worker hmem => List.eq_of_mem_replicate hmem
  have hnone (p : Worker α → Bool) (hp : p {} = false) :
      (create threads hardwareConcurrency : ThreadPool α).workers.countP p = 0 := by
    rw [List.countP_eq_zero]
    intro worker hmem
    rw [hworker worker hmem, hp]
    exact Bool.false_ne_true
  constructor
  · refine ⟨rfl, ?_, List.nodup_nil, ?_, ?_, ?_⟩
    · intro task
      simp [create]
    · have hheld : (create threads hardwareConcurrency : ThreadPool α).workers.filterMap
          Worker.held = [] := by
        rw [List.filterMap_eq_nil_iff]
        intro worker hmem
        rw [hworker worker hmem]
        rfl
      rw [hheld]
      exact List.Perm.refl _
    · intro entry hmem
      cases hmem
    · intro index worker task hread hheld
      rw [hworker worker (List.mem_of_getElem? hread)] at hheld
      cases hheld
  · rw [Accounted, hnone Worker.permitted rfl]
    rfl
  · refine ⟨?_, ?_⟩
    · rintro owner hinside
      cases owner with
      | worker index =>
          obtain ⟨worker, hread, hcritical⟩ := hinside
          rw [hworker worker (List.mem_of_getElem? hread)] at hcritical
          cases hcritical
      | submit call =>
          obtain ⟨submission, hread, -⟩ := hinside
          cases hread
    · rw [hnone Worker.uncounted rfl]
      rfl

/-- Every run keeps a pool consistent until it is shut down. -/
theorem consistent_run {threads hardwareConcurrency : ℕ} {events : List (PoolEvent α)}
    {p : ThreadPool α} (run : (machine threads hardwareConcurrency).Run events p) :
    Closed p ∧ (p.shutdown = false → Consistent p) := by
  refine run.invariant
    (motive := fun p : ThreadPool α => Closed p ∧ (p.shutdown = false → Consistent p)) ?_ ?_
  · refine ⟨?_, ?_⟩
    · intro hclosing
      exact (hclosing rfl).elim
    · intro _
      exact consistent_create threads hardwareConcurrency
  · rintro p event p' ⟨hclosed, inv⟩ - taken
    obtain ⟨hclosed', hstep⟩ := step_cases hclosed taken
    refine ⟨hclosed', fun running => ?_⟩
    obtain ⟨hrunning, hcase⟩ := hstep running
    have hold := inv hrunning
    exact ⟨recorded_step hold.recorded hcase, accounted_step hold.accounted hcase,
      guarded_step hold.guarded hcase⟩

/-- A worker has run a task or has popped it to run it. -/
def Runs (p : ThreadPool α) (index : ℕ) (task : PackagedTask α) : Prop :=
  (index, task) ∈ p.ran ∨
    ∃ worker, p.workers[index]? = some worker ∧ worker.held = some task

/-- No task is lost, duplicated, overtaken or run twice, and the queue, the semaphore and
the counter agree. -/
structure ExactlyOnce (p : ThreadPool α) : Prop where
  /-- The calls that are past the push have pushed their tasks, each once. -/
  pushed : ∀ task, task ∈ p.pushed ↔ ∃ submission, p.submits[task.call]? = some submission ∧
    submission.body = task.body ∧ submission.pushed = true
  distinct : (p.pushed.map PackagedTask.call).Nodup
  /-- What was popped, then what is queued, is what was pushed, in that order. -/
  order : p.popped.map Prod.snd ++ p.tasks = p.pushed
  /-- What was popped was run once or is in the hands of a worker. -/
  assigned : (p.ran.map Prod.snd ++ p.workers.filterMap Worker.held).Perm
    (p.popped.map Prod.snd)
  /-- No task is run by two workers. -/
  alone : ∀ i j a b, p.Runs i a → p.Runs j b → a.call = b.call → i = j
  /-- A worker that comes to pop finds a task. -/
  unstarved : ∀ (index : ℕ) (worker : Worker α), p.workers[index]? = some worker →
    worker.pc = .locked → p.tasks ≠ []
  permits : p.permits + p.workers.countP Worker.permitted + p.submits.countP Submission.owing =
    p.tasks.length
  queued : p.queueMutex = none → p.queuedTasks = p.tasks.length

/-- A worker runs only what it popped. -/
theorem Recorded.popped_of_runs {p : ThreadPool α} (inv : Recorded p) {index : ℕ}
    {task : PackagedTask α} (runs : p.Runs index task) : (index, task) ∈ p.popped := by
  rcases runs with hran | ⟨worker, hread, hheld⟩
  · exact inv.ran _ hran
  · exact inv.held _ _ _ hread hheld

/-- A call made one task, and one worker popped it. -/
theorem Recorded.popped_unique {p : ThreadPool α} (inv : Recorded p)
    {first second : ℕ × PackagedTask α} (hfirst : first ∈ p.popped) (hsecond : second ∈ p.popped)
    (same : first.2.call = second.2.call) : first = second := by
  have hnodup : (p.popped.map fun entry => entry.2.call).Nodup := by
    have hdistinct := inv.distinct
    rw [← inv.order, List.map_append, List.map_map] at hdistinct
    exact hdistinct.of_append_left
  exact List.inj_on_of_nodup_map hnodup hfirst hsecond same

/-- Before a pool is shut down each task is taken exactly once, whatever the number of
its workers and however their steps and the calls of `submit` interleave. -/
theorem exactlyOnce_of_running {threads hardwareConcurrency : ℕ} {events : List (PoolEvent α)}
    {p : ThreadPool α} (run : (machine threads hardwareConcurrency).Run events p)
    (running : p.shutdown = false) : ExactlyOnce p := by
  obtain ⟨hrecorded, haccounted, hguarded⟩ := (consistent_run run).2 running
  refine ⟨hrecorded.pushed, hrecorded.distinct, hrecorded.order, hrecorded.assigned, ?_, ?_,
    haccounted, hguarded.queuedTasks_eq⟩
  · intro i j a b hfirst hsecond same
    have hentries := hrecorded.popped_unique (hrecorded.popped_of_runs hfirst)
      (hrecorded.popped_of_runs hsecond) same
    exact congrArg Prod.fst hentries
  · intro index worker hread hlocked
    apply haccounted.tasks_ne_nil hread
    rw [Worker.permitted, hlocked]

/-- Two calls, with the second worker popping the task of the first. -/
def twoTasks : List (PoolEvent Bool) :=
  [.call true, .call false] ++ List.replicate 6 (.submit 0) ++ List.replicate 2 (.worker 1) ++
    List.replicate 6 (.submit 1) ++ List.replicate 6 (.worker 1) ++ List.replicate 3 (.worker 0)

theorem exactlyOnce_of_twoTasks :
    ExactlyOnce ((machine 2 16).reached twoTasks) :=
  exactlyOnce_of_running (Machine.run_reached (by decide +kernel)) (by decide +kernel)

end ThreadPool

end Sxaint.Core
