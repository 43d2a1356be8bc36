/-
# The thread pool

The workers of a `ThreadPool`, the calls of its `submit` and its `shutdown`, as threads
that share a queue, a mutex, a semaphore and a few atomics. A program counter stands for a
point between two accesses to what is shared; inside a section under the mutex only the
queue and its counter are touched, one access a step.

Tasks are told apart by the call of `submit` that made them, so that the same function may
be submitted twice. What was pushed, popped and run is kept as a history.
-/

import Sxaint.Machine.Pool
import Sxaint.Machine.Run

namespace Sxaint.Core

open Transition

/-- A task, with the call of `submit` that made it. -/
structure PackagedTask (α : Type) where
  call : ℕ
  body : α
  deriving DecidableEq, Repr

/-- Where a worker is in its loop. -/
inductive WorkerPc (α : Type)
  | /-- Before the stop token is tested. -/
    loop
  | /-- Before a permit is acquired. -/
    acquire
  | /-- A permit is taken; before the test for shutdown. -/
    test
  | /-- Before the mutex is locked. -/
    lock
  | /-- The mutex is held; before the front of the queue is taken. -/
    locked
  | /-- The task is popped; before the counter is decremented. -/
    uncount (task : PackagedTask α)
  | /-- Before the mutex is unlocked. -/
    unlock (task : PackagedTask α)
  | /-- Before the active tasks are incremented. -/
    start (task : PackagedTask α)
  | /-- Before the task is run. -/
    run (task : PackagedTask α)
  | /-- Before the active tasks are decremented. -/
    finish
  | returned
  deriving DecidableEq, Repr

/-- A worker and its stop token. -/
structure Worker (α : Type) where
  pc : WorkerPc α := .loop
  stop : Bool := false
  deriving DecidableEq, Repr

/-- Where a call of `submit` is. -/
inductive SubmitPc
  | /-- The task is packaged; before the mutex is locked. -/
    lock
  | /-- The mutex is held; before the test for shutdown. -/
    locked
  | /-- The pool was not shut down; before the task is put into the queue. -/
    push
  | /-- The task is in the queue; before the counter is incremented. -/
    count
  | /-- Before the mutex is unlocked. -/
    unlock
  | /-- Before the permit is released. -/
    release
  | returned
  | /-- Left by the exception for a stopped pool. -/
    refused
  deriving DecidableEq, Repr

/-- A call of `submit`. -/
structure Submission (α : Type) where
  body : α
  pc : SubmitPc := .lock
  deriving DecidableEq, Repr

/-- Where the thread that shuts the pool down is. -/
inductive ShutdownPc
  | /-- The flag is exchanged; before the workers are released. -/
    release
  | /-- Before a worker's stop is requested. -/
    stop (index : ℕ)
  | /-- Before that worker is joined. -/
    join (index : ℕ)
  | done
  deriving DecidableEq, Repr

/-- Who holds `queue_mutex_`. -/
inductive Owner
  | worker (index : ℕ)
  | submit (call : ℕ)
  deriving DecidableEq, Repr

/-- The members of a pool, its threads and its history. -/
structure ThreadPool (α : Type) where
  workers : List (Worker α)
  /-- The calls of `submit` in the order in which they were made. -/
  submits : List (Submission α) := []
  tasks : List (PackagedTask α) := []
  queueMutex : Option Owner := none
  /-- The permits of `taskSemaphore_`. -/
  permits : ℕ := 0
  shutdown : Bool := false
  activeTasks : ℕ := 0
  queuedTasks : ℕ := 0
  /-- Where `shutdown` is, once it was called. -/
  closing : Option ShutdownPc := none
  /-- The tasks put into the queue so far. -/
  pushed : List (PackagedTask α) := []
  /-- The tasks taken from the queue so far, with the workers that took them. -/
  popped : List (ℕ × PackagedTask α) := []
  /-- The tasks that were run so far, with the workers that ran them. -/
  ran : List (ℕ × PackagedTask α) := []
  deriving DecidableEq, Repr

/-- A step of one of the threads. -/
inductive PoolEvent (α : Type)
  | /-- A thread calls `submit`. -/
    call (body : α)
  | /-- A call of `submit` takes its next step. -/
    submit (call : ℕ)
  | /-- A worker takes its next step. -/
    worker (index : ℕ)
  | /-- `shutdown` is called or takes its next step. -/
    shutdown
  deriving DecidableEq, Repr

namespace ThreadPool

variable {α : Type}

/-- The number of workers for an argument of the constructor. -/
def workerCount (threads hardwareConcurrency : ℕ) : ℕ :=
  if threads = 0 then if hardwareConcurrency > 0 then hardwareConcurrency * 2 else 8
  else threads

/-- The constructor. -/
def create (threads hardwareConcurrency : ℕ) : ThreadPool α where
  workers := List.replicate (workerCount threads hardwareConcurrency) {}

/-- One step of a worker. -/
def workerStep (index : ℕ) (worker : Worker α) (p : ThreadPool α) :
    Option (WorkerPc α × ThreadPool α) :=
  match worker.pc with
  | .loop => some (if worker.stop then .returned else .acquire, p)
  | .acquire => if p.permits = 0 then none else some (.test, { p with permits := p.permits - 1 })
  | .test => some (if p.shutdown && p.tasks.isEmpty then .returned else .lock, p)
  | .lock =>
    if p.queueMutex = none then some (.locked, { p with queueMutex := some (.worker index) })
    else none
  | .locked =>
    match p.tasks with
    | [] => some (.loop, { p with queueMutex := none })
    | task :: rest =>
      some (.uncount task, { p with tasks := rest, popped := p.popped ++ [(index, task)] })
  | .uncount task => some (.unlock task, { p with queuedTasks := p.queuedTasks - 1 })
  | .unlock task => some (.start task, { p with queueMutex := none })
  | .start task => some (.run task, { p with activeTasks := p.activeTasks + 1 })
  | .run task => some (.finish, { p with ran := p.ran ++ [(index, task)] })
  | .finish => some (.loop, { p with activeTasks := p.activeTasks - 1 })
  | .returned => none

/-- One step of a call of `submit`. -/
def submitStep (call : ℕ) (submission : Submission α) (p : ThreadPool α) :
    Option (SubmitPc × ThreadPool α) :=
  match submission.pc with
  | .lock =>
    if p.queueMutex = none then some (.locked, { p with queueMutex := some (.submit call) })
    else none
  | .locked => some (if p.shutdown then (.refused, { p with queueMutex := none }) else (.push, p))
  | .push =>
    some (.count,
      { p with
        tasks := p.tasks ++ [⟨call, submission.body⟩]
        pushed := p.pushed ++ [⟨call, submission.body⟩] })
  | .count => some (.unlock, { p with queuedTasks := p.queuedTasks + 1 })
  | .unlock => some (.release, { p with queueMutex := none })
  | .release => some (.returned, { p with permits := p.permits + 1 })
  | .returned => none
  | .refused => none

/-- One step of `shutdown`. Clearing the vector of workers stops and joins them one
after another. -/
def shutdownStep (p : ThreadPool α) : Option (ThreadPool α) :=
  match p.closing with
  | none => some { p with shutdown := true, closing := some .release }
  | some .release =>
    some { p with permits := p.permits + p.workers.length, closing := some (.stop 0) }
  | some (.stop index) =>
    match p.workers[index]? with
    | some worker =>
      some
        { p with
          workers := p.workers.set index { worker with stop := true }
          closing := some (.join index) }
    | none => some { p with closing := some .done }
  | some (.join index) =>
    match p.workers[index]? with
    | some worker =>
      match worker.pc with
      | .returned => some { p with closing := some (.stop (index + 1)) }
      | _ => none
    | none => none
  | some .done => none

/-- One step of a pool. -/
def step (event : PoolEvent α) (p : ThreadPool α) : Option (ThreadPool α) :=
  match event with
  | .call body => some { p with submits := p.submits ++ [{ body := body }] }
  | .submit call =>
    match p.submits[call]? with
    | none => none
    | some submission =>
      (submitStep call submission p).map fun (next, p) =>
        { p with submits := p.submits.set call { submission with pc := next } }
  | .worker index =>
    match p.workers[index]? with
    | none => none
    | some worker =>
      (workerStep index worker p).map fun (next, p) =>
        { p with workers := p.workers.set index { worker with pc := next } }
  | .shutdown => shutdownStep p

/-- The machine of a pool from its construction on. -/
def machine (threads hardwareConcurrency : ℕ) : Machine (ThreadPool α) (PoolEvent α) where
  init := create threads hardwareConcurrency
  step := step

/-! ## What one step can do -/

/-- The steps of a worker whose stop was requested or not. -/
inductive WorkerStep (index : ℕ) (stop : Bool) (p : ThreadPool α) :
    WorkerPc α → WorkerPc α → ThreadPool α → Prop
  | stopped (requested : stop = true) : WorkerStep index stop p .loop .returned p
  | looped (unasked : stop = false) : WorkerStep index stop p .loop .acquire p
  | acquired (available : p.permits ≠ 0) :
      WorkerStep index stop p .acquire .test { p with permits := p.permits - 1 }
  | /-- The pool is shut down and has no task left. -/
    quit (closed : p.shutdown = true) (empty : p.tasks = []) :
      WorkerStep index stop p .test .returned p
  | tested (more : p.shutdown = true → p.tasks ≠ []) : WorkerStep index stop p .test .lock p
  | locked (free : p.queueMutex = none) :
      WorkerStep index stop p .lock .locked { p with queueMutex := some (.worker index) }
  | /-- A permit was consumed and there is no task. -/
    starved (empty : p.tasks = []) :
      WorkerStep index stop p .locked .loop { p with queueMutex := none }
  | popped {task : PackagedTask α} {rest : List (PackagedTask α)} (front : p.tasks = task :: rest) :
      WorkerStep index stop p .locked (.uncount task)
        { p with tasks := rest, popped := p.popped ++ [(index, task)] }
  | uncounted {task : PackagedTask α} :
      WorkerStep index stop p (.uncount task) (.unlock task)
        { p with queuedTasks := p.queuedTasks - 1 }
  | unlocked {task : PackagedTask α} :
      WorkerStep index stop p (.unlock task) (.start task) { p with queueMutex := none }
  | started {task : PackagedTask α} :
      WorkerStep index stop p (.start task) (.run task)
        { p with activeTasks := p.activeTasks + 1 }
  | ran {task : PackagedTask α} :
      WorkerStep index stop p (.run task) .finish { p with ran := p.ran ++ [(index, task)] }
  | finished :
      WorkerStep index stop p .finish .loop { p with activeTasks := p.activeTasks - 1 }

/-- Every step of a worker is one of the cases. -/
theorem workerStep_cases {index : ℕ} {worker : Worker α} {next : WorkerPc α} {p p' : ThreadPool α}
    (taken : workerStep index worker p = some (next, p')) :
    WorkerStep index worker.stop p worker.pc next p' := by
  obtain ⟨pc, stop⟩ := worker
  cases pc with
  | loop =>
      cases stop with
      | true =>
          cases taken
          exact .stopped rfl
      | false =>
          cases taken
          exact .looped rfl
  | acquire =>
      simp only [workerStep] at taken
      split at taken
      · cases taken
      · rename_i havailable
        cases taken
        exact .acquired havailable
  | test =>
      by_cases hquit : (p.shutdown && p.tasks.isEmpty) = true
      · rw [workerStep, if_pos hquit] at taken
        cases taken
        obtain ⟨hclosed, hempty⟩ := Bool.and_eq_true_iff.mp hquit
        exact .quit hclosed (List.isEmpty_iff.mp hempty)
      · rw [workerStep, if_neg hquit] at taken
        cases taken
        refine .tested fun hclosed hempty => hquit ?_
        rw [hclosed, hempty]
        rfl
  | lock =>
      simp only [workerStep] at taken
      split at taken
      · rename_i hfree
        cases taken
        exact .locked hfree
      · cases taken
  | locked =>
      simp only [workerStep] at taken
      split at taken
      · rename_i hempty
        cases taken
        exact .starved hempty
      · rename_i task rest hfront
        cases taken
        exact .popped hfront
  | uncount task =>
      cases taken
      exact .uncounted
  | unlock task =>
      cases taken
      exact .unlocked
  | start task =>
      cases taken
      exact .started
  | run task =>
      cases taken
      exact .ran
  | finish =>
      cases taken
      exact .finished
  | returned => cases taken

/-- The steps of a call of `submit`. -/
inductive SubmitStep (call : ℕ) (body : α) (p : ThreadPool α) :
    SubmitPc → SubmitPc → ThreadPool α → Prop
  | locked (free : p.queueMutex = none) :
      SubmitStep call body p .lock .locked { p with queueMutex := some (.submit call) }
  | refused (closed : p.shutdown = true) :
      SubmitStep call body p .locked .refused { p with queueMutex := none }
  | tested (running : p.shutdown = false) : SubmitStep call body p .locked .push p
  | pushed :
      SubmitStep call body p .push .count
        { p with tasks := p.tasks ++ [⟨call, body⟩], pushed := p.pushed ++ [⟨call, body⟩] }
  | counted : SubmitStep call body p .count .unlock { p with queuedTasks := p.queuedTasks + 1 }
  | unlocked : SubmitStep call body p .unlock .release { p with queueMutex := none }
  | released : SubmitStep call body p .release .returned { p with permits := p.permits + 1 }

/-- Every step of a call of `submit` is one of the cases. -/
theorem submitStep_cases {call : ℕ} {submission : Submission α} {next : SubmitPc}
    {p p' : ThreadPool α} (taken : submitStep call submission p = some (next, p')) :
    SubmitStep call submission.body p submission.pc next p' := by
  obtain ⟨body, pc⟩ := submission
  cases pc with
  | lock =>
      simp only [submitStep] at taken
      split at taken
      · rename_i hfree
        cases taken
        exact .locked hfree
      · cases taken
  | locked =>
      simp only [submitStep] at taken
      split at taken
      · rename_i hclosed
        cases taken
        exact .refused hclosed
      · rename_i hrunning
        cases taken
        exact .tested (Bool.eq_false_iff.mpr hrunning)
  | push =>
      cases taken
      exact .pushed
  | count =>
      cases taken
      exact .counted
  | unlock =>
      cases taken
      exact .unlocked
  | release =>
      cases taken
      exact .released
  | returned => cases taken
  | refused => cases taken

/-- A step of a worker or of a call of `submit`. -/
inductive Step (p : ThreadPool α) : PoolEvent α → ThreadPool α → Prop
  | call {body : α} : Step p (.call body) { p with submits := p.submits ++ [{ body := body }] }
  | submit {call : ℕ} {submission : Submission α} {next : SubmitPc} {v : ThreadPool α}
      (found : p.submits[call]? = some submission)
      (taken : SubmitStep call submission.body p submission.pc next v) :
      Step p (.submit call)
        { v with submits := v.submits.set call { submission with pc := next } }
  | worker {index : ℕ} {worker : Worker α} {next : WorkerPc α} {v : ThreadPool α}
      (found : p.workers[index]? = some worker)
      (taken : WorkerStep index worker.stop p worker.pc next v) :
      Step p (.worker index) { v with workers := v.workers.set index { worker with pc := next } }

/-- The steps of `shutdown`. -/
inductive ShutdownStep (p : ThreadPool α) : ThreadPool α → Prop
  | flagged (uncalled : p.closing = none) :
      ShutdownStep p { p with shutdown := true, closing := some .release }
  | released (reached : p.closing = some .release) :
      ShutdownStep p { p with permits := p.permits + p.workers.length, closing := some (.stop 0) }
  | requested {index : ℕ} {worker : Worker α} (reached : p.closing = some (.stop index))
      (found : p.workers[index]? = some worker) :
      ShutdownStep p
        { p with
          workers := p.workers.set index { worker with stop := true }
          closing := some (.join index) }
  | joined {index : ℕ} {worker : Worker α} (reached : p.closing = some (.join index))
      (found : p.workers[index]? = some worker) (returned : worker.pc = .returned) :
      ShutdownStep p { p with closing := some (.stop (index + 1)) }
  | ended {index : ℕ} (reached : p.closing = some (.stop index))
      (past : p.workers[index]? = none) : ShutdownStep p { p with closing := some .done }

/-- Every step of `shutdown` is one of the cases. -/
theorem shutdownStep_cases {p p' : ThreadPool α} (taken : shutdownStep p = some p') :
    ShutdownStep p p' := by
  rw [shutdownStep] at taken
  split at taken
  · rename_i huncalled
    cases taken
    exact .flagged huncalled
  · rename_i hreached
    cases taken
    exact .released hreached
  · rename_i index hreached
    split at taken
    · rename_i worker hfound
      cases taken
      exact .requested hreached hfound
    · rename_i hpast
      cases taken
      exact .ended hreached hpast
  · rename_i index hreached
    split at taken
    · rename_i worker hfound
      split at taken
      · rename_i hreturned
        cases taken
        exact .joined hreached hfound hreturned
      · cases taken
    · cases taken
  · cases taken

/-- A step is one of `shutdown` or of another thread. -/
theorem step_split {event : PoolEvent α} {p p' : ThreadPool α} (taken : step event p = some p') :
    Step p event p' ∨ event = .shutdown ∧ ShutdownStep p p' := by
  cases event with
  | call body =>
      cases taken
      exact .inl .call
  | submit call =>
      rw [step] at taken
      split at taken
      · cases taken
      · rename_i submission hfound
        obtain ⟨⟨next, v⟩, hstep, rfl⟩ := Option.map_eq_some_iff.mp taken
        exact .inl (.submit hfound (submitStep_cases hstep))
  | worker index =>
      rw [step] at taken
      split at taken
      · cases taken
      · rename_i worker hfound
        obtain ⟨⟨next, v⟩, hstep, rfl⟩ := Option.map_eq_some_iff.mp taken
        exact .inl (.worker hfound (workerStep_cases hstep))
  | shutdown => exact .inr ⟨rfl, shutdownStep_cases taken⟩

/-- The members that workers and calls of `submit` leave alone. -/
structure Frame (p v : ThreadPool α) : Prop where
  workers : v.workers = p.workers
  submits : v.submits = p.submits
  shutdown : v.shutdown = p.shutdown
  closing : v.closing = p.closing

theorem frame_of_workerStep {index : ℕ} {stop : Bool} {pc next : WorkerPc α}
    {p v : ThreadPool α} (taken : WorkerStep index stop p pc next v) : Frame p v := by
  cases taken <;> exact ⟨rfl, rfl, rfl, rfl⟩

theorem frame_of_submitStep {call : ℕ} {body : α} {pc next : SubmitPc} {p v : ThreadPool α}
    (taken : SubmitStep call body p pc next v) : Frame p v := by
  cases taken <;> exact ⟨rfl, rfl, rfl, rfl⟩

/-- The flag is set once `shutdown` is called. -/
def Closed (p : ThreadPool α) : Prop :=
  p.closing ≠ none → p.shutdown = true

/-- A step of a worker or of a call of `submit` does not touch the flag. -/
theorem Step.shutdown_eq {event : PoolEvent α} {p p' : ThreadPool α} (taken : Step p event p') :
    p'.shutdown = p.shutdown := by
  cases taken with
  | call => rfl
  | submit _ taken => exact (frame_of_submitStep taken).shutdown
  | worker _ taken => exact (frame_of_workerStep taken).shutdown

theorem Step.closing_eq {event : PoolEvent α} {p p' : ThreadPool α} (taken : Step p event p') :
    p'.closing = p.closing := by
  cases taken with
  | call => rfl
  | submit _ taken => exact (frame_of_submitStep taken).closing
  | worker _ taken => exact (frame_of_workerStep taken).closing

/-- A step after which the pool is not shut down is taken by a worker or a call of
`submit`, and starts before the end. -/
theorem step_cases {event : PoolEvent α} {p p' : ThreadPool α} (closed : Closed p)
    (taken : step event p = some p') :
    Closed p' ∧ (p'.shutdown = false → p.shutdown = false ∧ Step p event p') := by
  rcases step_split taken with hstep | ⟨-, hstep⟩
  · refine ⟨fun hclosing => ?_, fun running => ⟨hstep.shutdown_eq ▸ running, hstep⟩⟩
    rw [hstep.closing_eq] at hclosing
    exact hstep.shutdown_eq.trans (closed hclosing)
  · have hset : p'.shutdown = true := by
      cases hstep with
      | flagged _ => rfl
      | released reached | requested reached _ | joined reached _ _ | ended reached _ =>
          exact closed (by rw [reached]; exact Option.some_ne_none _)
    refine ⟨fun _ => hset, fun running => ?_⟩
    rw [hset] at running
    cases running

end ThreadPool

end Sxaint.Core
