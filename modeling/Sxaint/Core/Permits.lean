/-
# Permits at the shutdown

`shutdown` releases one permit for each worker, so that each can wake up once more and find
the flag. The permits last as long as every other permit that is taken is for a task: a
worker that takes one when the tasks in the queue are all spoken for comes back for another
one, and then a worker is left at the semaphore when the permits are used up.

A worker can come back to the semaphore if it is not asked to stop, as far as the place where
it is allows it. This is shown to be what the machine says, and the workers that can are
counted along a run.
-/

import Mathlib.Logic.Relation
import Sxaint.Core.Shutdown

namespace Sxaint.Core

open Transition

variable {α : Type}

/-- The worker is at the semaphore or can come back to it, when there is work left or
not. -/
def Worker.mayAcquire (work : Bool) (worker : Worker α) : Bool :=
  match worker.pc with
  | .acquire => true
  | .test => !worker.stop && work
  | .returned => false
  | _ => !worker.stop

/-- With more work more workers may come back. -/
theorem Worker.mayAcquire_mono {work more : Bool} (le : work = true → more = true)
    (worker : Worker α) (may : worker.mayAcquire work = true) :
    worker.mayAcquire more = true := by
  obtain ⟨pc, stop⟩ := worker
  cases pc with
  | test =>
      obtain ⟨hstop, hwork⟩ := Bool.and_eq_true_iff.mp may
      exact Bool.and_eq_true_iff.mpr ⟨hstop, le hwork⟩
  | _ => exact may

/-- A worker that is asked to stop may come back only if it may without that. -/
theorem Worker.mayAcquire_of_stopped {work : Bool} (worker : Worker α)
    (may : Worker.mayAcquire work { worker with stop := true } = true) :
    worker.mayAcquire work = true := by
  obtain ⟨pc, stop⟩ := worker
  cases pc with
  | acquire => rfl
  | _ => cases may

/-- The task is about to be put into the queue. -/
def Submission.pushing (submission : Submission α) : Bool :=
  match submission.pc with
  | .push => true
  | _ => false

namespace ThreadPool

variable {p p' : ThreadPool α}

/-! ## Coming back to the semaphore -/

/-- A task is in the queue or about to be put there. -/
def hasWork (p : ThreadPool α) : Bool :=
  !p.tasks.isEmpty || p.submits.any Submission.pushing

theorem hasWork_of_tasks (nonempty : p.tasks ≠ []) : p.hasWork = true := by
  rw [hasWork, Bool.or_eq_true_iff, Bool.not_eq_true', List.isEmpty_eq_false_iff]
  exact .inl nonempty

theorem hasWork_of_pushing {submission : Submission α} (mem : submission ∈ p.submits)
    (pushing : submission.pushing = true) : p.hasWork = true := by
  rw [hasWork, Bool.or_eq_true_iff]
  exact .inr (List.any_eq_true.mpr ⟨submission, mem, pushing⟩)

/-- A worker's step brings no work. -/
private theorem hasWork_worker {index : ℕ} {stop : Bool} {pc next : WorkerPc α} {v : ThreadPool α}
    (taken : WorkerStep index stop p pc next v) (work : v.hasWork = true) :
    p.hasWork = true := by
  cases taken with
  | popped front => exact hasWork_of_tasks (by rw [front]; exact List.cons_ne_nil _ _)
  | _ => exact work

/-- A worker that can come back to the semaphore after its step could before it. -/
private theorem mayAcquire_worker {index : ℕ} {stop : Bool} {pc next : WorkerPc α}
    {v : ThreadPool α} (closed : p.shutdown = true)
    (taken : WorkerStep index stop p pc next v)
    (may : Worker.mayAcquire p.hasWork { pc := next, stop := stop } = true) :
    Worker.mayAcquire p.hasWork { pc := pc, stop := stop } = true := by
  cases taken with
  | looped unasked =>
      rw [unasked]
      rfl
  | acquired _ => rfl
  | tested more => exact Bool.and_eq_true_iff.mpr ⟨may, hasWork_of_tasks (more closed)⟩
  | stopped _ => cases may
  | quit _ _ => cases may
  | locked _ | starved _ | popped _ | uncounted | unlocked | started | ran | finished =>
      exact may

/-- After the flag is set, a step of `submit` brings no work. -/
private theorem hasWork_submit {call : ℕ} {submission : Submission α} {next : SubmitPc}
    {v : ThreadPool α} (closed : p.shutdown = true) (found : p.submits[call]? = some submission)
    (taken : SubmitStep call submission.body p submission.pc next v)
    (work :
      hasWork { v with submits := v.submits.set call { submission with pc := next } } = true) :
    p.hasWork = true := by
  obtain ⟨body, pc⟩ := submission
  have hset (same : Submission.pushing { body := body, pc := next } =
      Submission.pushing { body := body, pc := pc }) :
      (p.submits.set call { body := body, pc := next }).any Submission.pushing =
        p.submits.any Submission.pushing := Pool.any_set found same
  cases taken with
  | tested running =>
      rw [closed] at running
      cases running
  | pushed => exact hasWork_of_pushing (List.mem_of_getElem? found) rfl
  | locked _ | refused _ | counted | unlocked | released =>
      rw [hasWork, ← hset rfl]
      exact work

/-- The worker is at the semaphore, in this state or in one that this state leads to. -/
def CanAcquire (p : ThreadPool α) (index : ℕ) : Prop :=
  ∃ last, Relation.ReflTransGen (fun p next => ∃ event, step event p = some next) p last ∧
    ∃ worker, last.workers[index]? = some worker ∧ worker.pc = .acquire

/-- The flag stays set. -/
theorem closed_of_step {event : PoolEvent α} (closed : p.shutdown = true)
    (taken : step event p = some p') : p'.shutdown = true := by
  rcases step_split taken with hstep | ⟨-, hstep⟩
  · exact hstep.shutdown_eq.trans closed
  · cases hstep with
    | flagged _ => rfl
    | released _ | requested _ _ | joined _ _ _ | ended _ _ => exact closed

/-- A worker that may come back after a step may come back before it. -/
private theorem mayAcquire_step {event : PoolEvent α} (closed : p.shutdown = true)
    (taken : step event p = some p') {index : ℕ} {after : Worker α}
    (read : p'.workers[index]? = some after) (may : after.mayAcquire p'.hasWork = true) :
    ∃ worker, p.workers[index]? = some worker ∧ worker.mayAcquire p.hasWork = true := by
  rcases step_split taken with hstep | ⟨-, hstep⟩
  · cases hstep with
    | call =>
        refine ⟨after, read, ?_⟩
        simpa [hasWork, Submission.pushing] using may
    | submit found hcase =>
        have hframe := frame_of_submitStep hcase
        simp only [hframe.workers] at read
        exact ⟨after, read, after.mayAcquire_mono (hasWork_submit closed found hcase) may⟩
    | worker found hcase =>
        have hframe := frame_of_workerStep hcase
        simp only [hframe.workers] at read
        have hmay := after.mayAcquire_mono (hasWork_worker hcase) may
        rcases Pool.getElem?_set_eq_some read with ⟨rfl, rfl⟩ | ⟨-, hold⟩
        · exact ⟨_, found, mayAcquire_worker closed hcase hmay⟩
        · exact ⟨after, hold, hmay⟩
  · cases hstep with
    | @requested _ worker _ found =>
        rcases Pool.getElem?_set_eq_some read with ⟨rfl, rfl⟩ | ⟨-, hold⟩
        · exact ⟨worker, found, worker.mayAcquire_of_stopped may⟩
        · exact ⟨after, hold, may⟩
    | flagged _ | released _ | joined _ _ _ | ended _ _ => exact ⟨after, read, may⟩

/-- After the flag is set, only workers that may come back to the semaphore do. -/
theorem mayAcquire_of_canAcquire (closed : p.shutdown = true) {index : ℕ}
    (can : p.CanAcquire index) :
    ∃ worker, p.workers[index]? = some worker ∧ worker.mayAcquire p.hasWork = true := by
  obtain ⟨last, hreach, worker, hread, hpc⟩ := can
  have hback : last.shutdown = true ∧ ∀ after, last.workers[index]? = some after →
      after.mayAcquire last.hasWork = true →
      ∃ worker, p.workers[index]? = some worker ∧ worker.mayAcquire p.hasWork = true := by
    clear hread hpc
    induction hreach with
    | refl => exact ⟨closed, fun after hread hmay => ⟨after, hread, hmay⟩⟩
    | tail _ hstep ih =>
        obtain ⟨event, taken⟩ := hstep
        obtain ⟨hclosed, hbefore⟩ := ih
        refine ⟨closed_of_step hclosed taken, fun after hread hmay => ?_⟩
        obtain ⟨middle, hmiddle, hold⟩ := mayAcquire_step hclosed taken hread hmay
        exact hbefore middle hmiddle hold
  apply hback.2 worker hread
  rw [Worker.mayAcquire, hpc]

/-! ## The permits after the release -/

/-- `shutdown` has released its permits. -/
def Released (p : ThreadPool α) : Prop :=
  p.closing ≠ none ∧ p.closing ≠ some .release

instance (p : ThreadPool α) : Decidable (Released p) :=
  inferInstanceAs (Decidable (_ ∧ _))

/-- The number of workers that may still come to the semaphore. -/
def demand (p : ThreadPool α) : ℕ :=
  p.workers.countP (Worker.mayAcquire p.hasWork)

/-- The permits that are taken and not used, or still to be released for a task. -/
def spokenFor (p : ThreadPool α) : ℕ :=
  p.workers.countP Worker.permitted + p.submits.countP Submission.owing

/-- There is a permit for each worker that may come back, and one for each task beyond
those that are spoken for. -/
structure Stocked (p : ThreadPool α) : Prop where
  closed : p.shutdown = true
  reserve : p.demand ≤ p.permits
  ahead : p.tasks.length + p.demand ≤ p.permits + p.spokenFor

/-- A worker that is not asked to stop takes a permit while there is work left only for a
task that no other permit is for. -/
def Thrifty (p : ThreadPool α) : PoolEvent α → Prop
  | .worker index =>
    Released p → ∀ worker ∈ p.workers[index]?, worker.pc = .acquire → worker.stop = false →
      p.hasWork = true → p.spokenFor < p.tasks.length
  | _ => True

instance [DecidableEq α] (p : ThreadPool α) : (event : PoolEvent α) → Decidable (Thrifty p event)
  | .worker _ => inferInstanceAs (Decidable (Released p → _))
  | .submit _ => .isTrue trivial
  | .call _ => .isTrue trivial
  | .shutdown => .isTrue trivial

/-- The workers that may come back after a worker's step. -/
private theorem demand_worker {index : ℕ} {worker : Worker α} {next : WorkerPc α}
    {v : ThreadPool α} (found : p.workers[index]? = some worker)
    (taken : WorkerStep index worker.stop p worker.pc next v) :
    demand { v with workers := v.workers.set index { worker with pc := next } } +
        (if worker.mayAcquire p.hasWork then 1 else 0) ≤
      p.demand +
        (if Worker.mayAcquire p.hasWork { worker with pc := next } then 1 else 0) := by
  have hframe := frame_of_workerStep taken
  have hset := Pool.countP_set_add found (Worker.mayAcquire p.hasWork) { worker with pc := next }
  have hle : demand { v with workers := v.workers.set index { worker with pc := next } } ≤
      (p.workers.set index { worker with pc := next }).countP (Worker.mayAcquire p.hasWork) := by
    simp only [demand, hframe.workers]
    exact List.countP_mono_left fun other _ => other.mayAcquire_mono (hasWork_worker taken)
  rw [demand] at hle ⊢
  rw [demand]
  omega

/-- A worker's step takes a permit at the semaphore only. -/
private theorem permits_worker {index : ℕ} {stop : Bool} {pc next : WorkerPc α} {v : ThreadPool α}
    (taken : WorkerStep index stop p pc next v) :
    v.permits = p.permits ∨ pc = .acquire ∧ next = .test ∧ p.permits = v.permits + 1 := by
  cases taken with
  | acquired available =>
      refine .inr ⟨rfl, rfl, ?_⟩
      simp only
      omega
  | _ => exact .inl rfl

/-- A permit is used up by the pop of a task, as long as there is one. -/
private theorem balance_worker {index : ℕ} {worker : Worker α} {next : WorkerPc α}
    {v : ThreadPool α} (found : p.workers[index]? = some worker)
    (taken : WorkerStep index worker.stop p worker.pc next v) :
    p.tasks.length = 0 ∧ v.tasks.length = 0 ∨
      v.permits + (v.workers.set index { worker with pc := next }).countP Worker.permitted +
          p.tasks.length =
        p.permits + p.workers.countP Worker.permitted + v.tasks.length := by
  obtain ⟨pc, stop⟩ := worker
  have hcount := Pool.countP_set_add found Worker.permitted { pc := next, stop := stop }
  cases taken with
  | quit _ empty | starved empty =>
      rw [List.length_eq_zero_iff]
      exact .inl ⟨empty, empty⟩
  | popped front =>
      rw [front, List.length_cons]
      simp only [Worker.permitted, if_true, Bool.false_eq_true, if_false] at hcount ⊢
      omega
  | stopped _ | looped _ | acquired _ | tested _ | locked _ | uncounted | unlocked | started | ran
  | finished =>
      simp only [Worker.permitted, if_true, Bool.false_eq_true, if_false] at hcount ⊢
      omega

private theorem stocked_worker {index : ℕ} {worker : Worker α} {next : WorkerPc α}
    {v : ThreadPool α} (inv : Stocked p) (released : Released p)
    (ok : Thrifty p (.worker index)) (found : p.workers[index]? = some worker)
    (taken : WorkerStep index worker.stop p worker.pc next v) :
    Stocked { v with workers := v.workers.set index { worker with pc := next } } := by
  obtain ⟨hclosed, hreserve, hahead⟩ := inv
  have hframe := frame_of_workerStep taken
  have hdemand := demand_worker found taken
  have hback := mayAcquire_worker hclosed taken
  have hbalance := balance_worker found taken
  have hle : demand { v with workers := v.workers.set index { worker with pc := next } } ≤
      p.demand := by
    by_cases hmay : worker.mayAcquire p.hasWork = true
    · rw [if_pos hmay] at hdemand
      split at hdemand <;> omega
    · rw [if_neg hmay, if_neg fun hnext => hmay (hback hnext)] at hdemand
      omega
  have hlower : demand { v with workers := v.workers.set index { worker with pc := next } } ≤
      v.permits := by
    rcases permits_worker taken with hsame | ⟨hpc, rfl, htook⟩
    · omega
    · have hmay : worker.mayAcquire p.hasWork = true := by rw [Worker.mayAcquire, hpc]
      rw [if_pos hmay] at hdemand
      split at hdemand
      · -- the worker may come back, so the permit it took is for a task that is left over
        rename_i hnext
        obtain ⟨hstop, hwork⟩ := Bool.and_eq_true_iff.mp hnext
        have hspare := ok released worker found hpc (Bool.not_eq_true' _ ▸ hstop) hwork
        omega
      · omega
  have hupper : v.tasks.length +
      demand { v with workers := v.workers.set index { worker with pc := next } } ≤
      v.permits + ((v.workers.set index { worker with pc := next }).countP Worker.permitted +
        v.submits.countP Submission.owing) := by
    have howing := congrArg (List.countP Submission.owing) hframe.submits
    rw [spokenFor] at hahead
    omega
  exact ⟨hframe.shutdown.trans hclosed, hlower, hupper⟩

private theorem stocked_submit {call : ℕ} {submission : Submission α} {next : SubmitPc}
    {v : ThreadPool α} (inv : Stocked p) (found : p.submits[call]? = some submission)
    (taken : SubmitStep call submission.body p submission.pc next v) :
    Stocked { v with submits := v.submits.set call { submission with pc := next } } := by
  obtain ⟨hclosed, hreserve, hahead⟩ := inv
  have hframe := frame_of_submitStep taken
  have hwork := hasWork_submit hclosed found taken
  obtain ⟨body, pc⟩ := submission
  have hle : demand { v with submits := v.submits.set call { body := body, pc := next } } ≤
      p.demand := by
    simp only [demand, hframe.workers]
    exact List.countP_mono_left fun other _ => other.mayAcquire_mono hwork
  have hcount := Pool.countP_set_add found Submission.owing { body := body, pc := next }
  have hbalance : p.permits ≤ v.permits ∧ v.tasks.length + p.permits +
      p.submits.countP Submission.owing ≤ p.tasks.length + v.permits +
        (p.submits.set call { body := body, pc := next }).countP Submission.owing := by
    cases taken with
    | pushed =>
        simp only [Submission.owing, List.length_append, List.length_singleton, if_true,
          Bool.false_eq_true, if_false] at hcount ⊢
        omega
    | locked _ | refused _ | tested _ | counted | unlocked | released =>
        simp only [Submission.owing, if_true, Bool.false_eq_true, if_false] at hcount ⊢
        omega
  have hupper : v.tasks.length +
      demand { v with submits := v.submits.set call { body := body, pc := next } } ≤
      v.permits + (v.workers.countP Worker.permitted +
        (v.submits.set call { body := body, pc := next }).countP Submission.owing) := by
    have hpermitted := congrArg (List.countP Worker.permitted) hframe.workers
    have howing : (v.submits.set call { body := body, pc := next }).countP Submission.owing =
        (p.submits.set call { body := body, pc := next }).countP Submission.owing := by
      rw [hframe.submits]
    rw [spokenFor] at hahead
    omega
  exact ⟨hframe.shutdown.trans hclosed, Nat.le_trans (Nat.le_trans hle hreserve) hbalance.1, hupper⟩

private theorem stocked_call {body : α} (inv : Stocked p) :
    Stocked { p with submits := p.submits ++ [{ body := body }] } := by
  have hwork : hasWork { p with submits := p.submits ++ [{ body := body }] } = p.hasWork := by
    simp [hasWork, Submission.pushing]
  have hdemand : demand { p with submits := p.submits ++ [{ body := body }] } = p.demand := by
    rw [demand, hwork]
    rfl
  have howing : spokenFor { p with submits := p.submits ++ [{ body := body }] } =
      p.spokenFor := by
    simp [spokenFor, Submission.owing]
  refine ⟨inv.closed, Nat.le_trans (Nat.le_of_eq hdemand) inv.reserve, ?_⟩
  rw [hdemand, howing]
  exact inv.ahead

/-- The permits that are released make up for every worker. -/
private theorem stocked_released (accounted : Accounted p) (closed : p.shutdown = true) :
    Stocked { p with permits := p.permits + p.workers.length, closing := some (.stop 0) } := by
  have hle : p.demand ≤ p.workers.length := List.countP_le_length
  rw [Accounted] at accounted
  have hreserve : p.demand ≤ p.permits + p.workers.length := by omega
  have hahead : p.tasks.length + p.demand ≤ p.permits + p.workers.length + p.spokenFor := by
    rw [spokenFor]
    omega
  exact ⟨closed, hreserve, hahead⟩

private theorem stocked_shutdown (inv : Stocked p) (released : Released p)
    (taken : ShutdownStep p p') : Stocked p' := by
  cases taken with
  | flagged uncalled => exact (released.1 uncalled).elim
  | released reached => exact (released.2 reached).elim
  | @requested index worker _ found =>
      have hmay := Pool.countP_set_add found (Worker.mayAcquire p.hasWork)
        { worker with stop := true }
      have hpermitted := Pool.countP_set_add found Worker.permitted { worker with stop := true }
      have hstopped := @Worker.mayAcquire_of_stopped _ p.hasWork worker
      obtain ⟨hclosed, hreserve, hahead⟩ := inv
      have hle : (p.workers.set index { worker with stop := true }).countP
          (Worker.mayAcquire p.hasWork) ≤ p.demand := by
        rw [demand]
        by_cases h : worker.mayAcquire p.hasWork = true
        · rw [if_pos h] at hmay
          split at hmay <;> omega
        · rw [if_neg h, if_neg fun hafter => h (hstopped hafter)] at hmay
          omega
      have hsame : (p.workers.set index { worker with stop := true }).countP Worker.permitted =
          p.workers.countP Worker.permitted := Nat.add_right_cancel hpermitted
      have hupper : p.tasks.length +
          (p.workers.set index { worker with stop := true }).countP
            (Worker.mayAcquire p.hasWork) ≤
          p.permits + ((p.workers.set index { worker with stop := true }).countP
            Worker.permitted + p.submits.countP Submission.owing) := by
        rw [hsame]
        exact Nat.le_trans (Nat.add_le_add_left hle _) hahead
      exact ⟨hclosed, Nat.le_trans hle hreserve, hupper⟩
  | joined _ _ _ | ended _ _ => exact ⟨inv.closed, inv.reserve, inv.ahead⟩

/-- The permits along a run: accounted for until the release, and in stock after it. -/
structure Provided (p : ThreadPool α) : Prop where
  closed : Closed p
  accounted : ¬ Released p → Accounted p
  stocked : Released p → Stocked p

theorem provided_step {event : PoolEvent α} (inv : Provided p) (ok : Thrifty p event)
    (taken : step event p = some p') : Provided p' := by
  have hclosed := (step_cases inv.closed taken).1
  rcases step_split taken with hstep | ⟨-, hstep⟩
  · have hsame : Released p' ↔ Released p := by rw [Released, hstep.closing_eq, Released]
    refine ⟨hclosed, fun hbefore => ?_, fun hafter => ?_⟩
    · exact accounted_step (inv.accounted (hsame.not.mp hbefore)) hstep
    · have hreleased := hsame.mp hafter
      have hstocked := inv.stocked hreleased
      cases hstep with
      | call => exact stocked_call hstocked
      | submit found hcase => exact stocked_submit hstocked found hcase
      | worker found hcase => exact stocked_worker hstocked hreleased ok found hcase
  · by_cases hreleased : Released p
    · refine ⟨hclosed, fun hbefore => ?_, fun _ => ?_⟩
      · refine (hbefore ?_).elim
        cases hstep with
        | flagged uncalled => exact (hreleased.1 uncalled).elim
        | released reached => exact (hreleased.2 reached).elim
        | requested _ _ | joined _ _ _ | ended _ _ =>
            exact ⟨Option.some_ne_none _, by rintro ⟨⟩⟩
      · exact stocked_shutdown (inv.stocked hreleased) hreleased hstep
    · have haccounted := inv.accounted hreleased
      cases hstep with
      | flagged _ =>
          exact ⟨hclosed, fun _ => haccounted, fun hafter => (hafter.2 rfl).elim⟩
      | released reached =>
          have hshutdown := inv.closed (by rw [reached]; exact Option.some_ne_none _)
          refine ⟨hclosed, fun hbefore => ?_, fun _ => stocked_released haccounted hshutdown⟩
          exact (hbefore ⟨Option.some_ne_none _, by rintro ⟨⟩⟩).elim
      | requested reached _ | joined reached _ _ | ended reached _ =>
          refine (hreleased ?_).elim
          rw [Released, reached]
          exact ⟨Option.some_ne_none _, by rintro ⟨⟩⟩

/-- A run whose workers are thrifty keeps the permits in stock. -/
theorem provided_run {threads hardwareConcurrency : ℕ} {events : List (PoolEvent α)}
    (run : (machine threads hardwareConcurrency).RunUnder Thrifty events p) : Provided p := by
  refine run.invariant (motive := Provided) ?_ ?_
  · refine ⟨fun hclosing => (hclosing rfl).elim, fun _ => ?_, fun hreleased => ?_⟩
    · exact (consistent_create threads hardwareConcurrency).accounted
    · exact (hreleased.1 rfl).elim
  · exact fun _ _ _ inv ok taken => provided_step inv ok taken

/-- After the release there is a permit for each worker that is at the semaphore or can come
back to it, so no worker is left waiting there. -/
structure Supplied (p : ThreadPool α) : Prop where
  enough : Released p → ∀ indices : List ℕ, indices.Nodup →
    (∀ index ∈ indices, CanAcquire p index) → indices.length ≤ p.permits
  awake : Released p → ∀ (index : ℕ) (worker : Worker α), p.workers[index]? = some worker →
    worker.pc = .acquire → p.permits ≠ 0

theorem Stocked.supplied (inv : Stocked p) : Supplied p := by
  have henough (indices : List ℕ) (distinct : indices.Nodup)
      (can : ∀ index ∈ indices, CanAcquire p index) : indices.length ≤ p.permits := by
    refine Nat.le_trans (Pool.length_le_countP distinct fun index hmem => ?_) inv.reserve
    exact mayAcquire_of_canAcquire inv.closed (can index hmem)
  refine ⟨fun _ => henough, fun _ index worker hread hpc hnone => ?_⟩
  have hone : [index].length ≤ p.permits := by
    apply henough [index] (List.nodup_singleton index)
    intro other hmem
    rw [List.mem_singleton.mp hmem]
    exact ⟨p, .refl, worker, hread, hpc⟩
  rw [hnone] at hone
  cases hone

/-- If a worker that is not asked to stop takes a permit, while there is work left, only for a
task that no other permit is for, the permits that `shutdown` releases last for every worker,
whatever the number of workers and tasks and however the threads interleave. -/
theorem supplied_of_thrifty {threads hardwareConcurrency : ℕ} {events : List (PoolEvent α)}
    {p : ThreadPool α}
    (run : (machine threads hardwareConcurrency).RunUnder Thrifty events p) : Supplied p := by
  have hprovided := provided_run run
  by_cases hreleased : Released p
  · exact (hprovided.stocked hreleased).supplied
  · exact ⟨fun h => (hreleased h).elim, fun h => (hreleased h).elim⟩

/-- One task is queued, and a worker has a permit for it when the shutdown releases the
workers. -/
def untilWoken : List (PoolEvent Bool) :=
  [.call true] ++ List.replicate 6 (.submit 0) ++ List.replicate 3 (.worker 0) ++
    [.shutdown, .shutdown]

/-- The worker pops the task before another one takes a permit. -/
def poppedInTime : List (PoolEvent Bool) :=
  untilWoken ++ List.replicate 2 (.worker 0) ++ List.replicate 3 (.worker 1)

theorem supplied_of_poppedInTime :
    Released ((machine 2 16).reached poppedInTime) ∧
      Supplied ((machine 2 16).reached poppedInTime) :=
  ⟨by decide +kernel, supplied_of_thrifty (Machine.runUnder_reached (by decide +kernel))⟩

/-- Another worker takes a permit when the one task is spoken for, finds the queue empty,
takes the last permit and leaves. The first one comes back to a semaphore without permits,
and the shutdown waits for it. -/
def burntPermit : List (PoolEvent Bool) :=
  untilWoken ++ List.replicate 3 (.worker 1) ++ List.replicate 4 (.worker 0) ++
    List.replicate 5 (.worker 1) ++ List.replicate 4 (.worker 0) ++ [.shutdown]

theorem not_supplied_of_burntPermit :
    ¬ ∀ (threads hardwareConcurrency : ℕ) (events : List (PoolEvent Bool)) (p : ThreadPool Bool),
      (machine threads hardwareConcurrency).Run events p → Supplied p := by
  intro supplied
  have hrun : (machine 2 16).Run burntPermit ((machine 2 16).reached burntPermit) :=
    Machine.run_reached (by decide +kernel)
  have hsupplied := supplied 2 16 burntPermit _ hrun
  apply hsupplied.awake _ 0 ⟨.acquire, true⟩
  · decide +kernel
  · rfl
  · decide +kernel
  · exact ⟨by decide +kernel, by decide +kernel⟩

end ThreadPool

end Sxaint.Core
