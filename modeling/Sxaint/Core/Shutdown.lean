/-
# Shutdown

`shutdown` sets its flag outside the mutex, wakes each worker with a permit, and then asks
one worker after another to stop and waits for it. A worker that is asked to stop leaves
its loop without a look at the queue, and a call of `submit` that found the flag unset can
push after it is set. So the tasks that are queued are run if the last worker to leave
leaves an empty queue, and nothing is pushed after it left.
-/

import Sxaint.Core.ExactlyOnce

namespace Sxaint.Core

open Transition

namespace ThreadPool

variable {α : Type} {p p' : ThreadPool α}

/-! ## What the shutdown keeps -/

/-- The history does not see the flag, the permits and the progress of `shutdown`. -/
private theorem recorded_close (inv : Recorded p) (flag : Bool) (permits : ℕ)
    (closing : Option ShutdownPc) :
    Recorded { p with shutdown := flag, permits := permits, closing := closing } :=
  ⟨inv.order, inv.pushed, inv.distinct, inv.assigned, inv.ran, inv.held⟩

private theorem recorded_shutdown (inv : Recorded p) (taken : ShutdownStep p p') :
    Recorded p' := by
  cases taken with
  | @requested index worker _ found =>
      have hstop := @recorded_hold α index worker { worker with stop := true } p p inv found
        ⟨rfl, rfl, rfl, rfl⟩ rfl rfl rfl rfl rfl
      exact recorded_close hstop p.shutdown p.permits (some (.join index))
  | flagged _ | released _ | joined _ _ _ | ended _ _ => exact recorded_close inv _ _ _

/-- Every run keeps the history, before the shutdown and after it. -/
theorem recorded_run {threads hardwareConcurrency : ℕ} {events : List (PoolEvent α)}
    (run : (machine threads hardwareConcurrency).Run events p) : Recorded p := by
  refine run.invariant (motive := Recorded)
    (consistent_create threads hardwareConcurrency).recorded ?_
  intro p event p' inv _ taken
  rcases step_split taken with hstep | ⟨-, hstep⟩
  · exact recorded_step inv hstep
  · exact recorded_shutdown inv hstep

/-! ## The workers that are joined -/

/-- The number of workers that `shutdown` has joined. -/
def joined (p : ThreadPool α) : ℕ :=
  match p.closing with
  | some (.stop index) => index
  | some (.join index) => index
  | some .done => p.workers.length
  | _ => 0

/-- A worker that is joined has returned. -/
def Joined (p : ThreadPool α) : Prop :=
  ∀ index worker, index < p.joined → p.workers[index]? = some worker → worker.pc = .returned

private theorem joined_worker {index : ℕ} {worker : Worker α} {next : WorkerPc α}
    {v : ThreadPool α} (inv : Joined p) (found : p.workers[index]? = some worker)
    (taken : WorkerStep index worker.stop p worker.pc next v) :
    Joined { v with workers := v.workers.set index { worker with pc := next } } := by
  have hframe := frame_of_workerStep taken
  have hcount : joined { v with workers := v.workers.set index { worker with pc := next } } =
      p.joined := by
    simp only [joined, hframe.closing, hframe.workers, List.length_set]
  intro other found' hlt hread
  rw [hcount] at hlt
  simp only [hframe.workers] at hread
  rcases Pool.getElem?_set_eq_some hread with ⟨rfl, rfl⟩ | ⟨-, hold⟩
  · -- a worker that has returned takes no step
    have hreturned := inv other worker hlt found
    rw [hreturned] at taken
    cases taken
  · exact inv other found' hlt hold

private theorem joined_shutdown (inv : Joined p) (taken : ShutdownStep p p') : Joined p' := by
  cases taken with
  | flagged _ => exact fun _ _ hlt => (Nat.not_lt_zero _ hlt).elim
  | released _ => exact fun _ _ hlt => (Nat.not_lt_zero _ hlt).elim
  | @requested index worker reached found =>
      intro other found' hlt hread
      rcases Pool.getElem?_set_eq_some hread with ⟨rfl, -⟩ | ⟨-, hold⟩
      · exact (Nat.lt_irrefl _ hlt).elim
      · apply inv other found' _ hold
        simpa only [joined, reached] using hlt
  | @joined index worker reached found returned =>
      intro other found' hlt hread
      rcases Nat.lt_succ_iff_lt_or_eq.mp hlt with hbefore | rfl
      · apply inv other found' _ hread
        simpa only [ThreadPool.joined, reached] using hbefore
      · obtain rfl := Option.some.inj (hread.symm.trans found)
        exact returned
  | @ended index reached past =>
      intro other found' hlt hread
      apply inv other found' _ hread
      have hend := List.getElem?_eq_none_iff.mp past
      simp only [ThreadPool.joined, reached]
      exact Nat.lt_of_lt_of_le hlt hend

/-- Every run joins only workers that have returned. -/
theorem joined_run {threads hardwareConcurrency : ℕ} {events : List (PoolEvent α)}
    (run : (machine threads hardwareConcurrency).Run events p) : Joined p := by
  refine run.invariant (motive := Joined) ?_ ?_
  · exact fun _ _ hlt => (Nat.not_lt_zero _ hlt).elim
  · intro p event p' inv _ taken
    rcases step_split taken with hstep | ⟨-, hstep⟩
    · cases hstep with
      | call => exact inv
      | submit _ hcase =>
          have hframe := frame_of_submitStep hcase
          intro index worker hlt hread
          simp only [joined, hframe.closing, hframe.workers] at hlt hread
          exact inv index worker hlt hread
      | worker found hcase => exact joined_worker inv found hcase
    · exact joined_shutdown inv hstep

/-- Every worker has left its loop. -/
def Deserted (p : ThreadPool α) : Prop :=
  ∀ worker ∈ p.workers, worker.pc = .returned

theorem Joined.deserted (inv : Joined p) (done : p.closing = some .done) : Deserted p := by
  intro worker hmem
  obtain ⟨index, hread⟩ := List.getElem?_of_mem hmem
  apply inv index worker _ hread
  obtain ⟨hlt, -⟩ := List.getElem?_eq_some_iff.mp hread
  simpa only [joined, done] using hlt

/-! ## What the last worker leaves behind -/

/-- The last worker to leave its loop for its stop request leaves an empty queue, and no
call of `submit` pushes after it. -/
def Draining (p : ThreadPool α) : PoolEvent α → Prop
  | .worker index =>
    ∀ worker ∈ p.workers[index]?, worker.pc = .loop → worker.stop = true → p.tasks ≠ [] →
      ∃ other ∈ p.workers.eraseIdx index, other.pc ≠ .returned
  | .submit call =>
    ∀ submission ∈ p.submits[call]?, submission.pc = .push →
      ∃ worker ∈ p.workers, worker.pc ≠ .returned
  | _ => True

instance [DecidableEq α] (p : ThreadPool α) : (event : PoolEvent α) → Decidable (Draining p event)
  | .worker index => inferInstanceAs (Decidable (∀ _ ∈ p.workers[index]?, _))
  | .submit call => inferInstanceAs (Decidable (∀ _ ∈ p.submits[call]?, _))
  | .call _ => .isTrue trivial
  | .shutdown => .isTrue trivial

/-- When every worker has left, no task is queued. -/
def Emptied (p : ThreadPool α) : Prop :=
  Deserted p → p.tasks = []

private theorem emptied_worker {index : ℕ} {worker : Worker α} {next : WorkerPc α}
    {v : ThreadPool α} (ok : Draining p (.worker index))
    (found : p.workers[index]? = some worker)
    (taken : WorkerStep index worker.stop p worker.pc next v) :
    Emptied { v with workers := v.workers.set index { worker with pc := next } } := by
  intro hdeserted
  have hframe := frame_of_workerStep taken
  simp only [Deserted, hframe.workers] at hdeserted
  obtain ⟨hlt, -⟩ := List.getElem?_eq_some_iff.mp found
  have hnext : next = .returned := hdeserted _ (List.mem_set hlt _)
  subst hnext
  generalize hpc : worker.pc = pc at taken
  cases taken with
  | quit _ empty => exact empty
  | stopped requested =>
      by_contra hleft
      obtain ⟨other, hother, hrunning⟩ := ok worker found hpc requested hleft
      obtain ⟨i, hne, hread⟩ := List.mem_eraseIdx_iff_getElem?.mp hother
      exact hrunning (hdeserted other
        (List.mem_of_getElem? ((List.getElem?_set_ne (Ne.symm hne)).trans hread)))

private theorem emptied_submit {call : ℕ} {submission : Submission α} {next : SubmitPc}
    {v : ThreadPool α} (inv : Emptied p) (ok : Draining p (.submit call))
    (found : p.submits[call]? = some submission)
    (taken : SubmitStep call submission.body p submission.pc next v) :
    Emptied { v with submits := v.submits.set call { submission with pc := next } } := by
  intro hdeserted
  have hframe := frame_of_submitStep taken
  simp only [Deserted, hframe.workers] at hdeserted
  generalize hpc : submission.pc = pc at taken
  cases taken with
  | pushed =>
      obtain ⟨worker, hmem, hrunning⟩ := ok submission found hpc
      exact (hrunning (hdeserted worker hmem)).elim
  | locked _ | refused _ | tested _ | counted | unlocked | released => exact inv hdeserted

private theorem emptied_shutdown (inv : Emptied p) (taken : ShutdownStep p p') :
    Emptied p' := by
  intro hdeserted
  cases taken with
  | @requested index worker _ found =>
      have hpcs : (p.workers.set index { worker with stop := true }).map Worker.pc =
          p.workers.map Worker.pc := Pool.map_set_eq found Worker.pc rfl
      apply inv
      intro other hmem
      obtain ⟨after, hafter, hsame⟩ : ∃ after ∈ p.workers.set index { worker with stop := true },
          after.pc = other.pc := by
        rw [← List.mem_map, hpcs]
        exact List.mem_map_of_mem hmem
      rw [← hsame]
      exact hdeserted after hafter
  | flagged _ | released _ | joined _ _ _ | ended _ _ => exact inv hdeserted

theorem emptied_run {threads hardwareConcurrency : ℕ} {events : List (PoolEvent α)}
    (run : (machine threads hardwareConcurrency).RunUnder Draining events p) : Emptied p := by
  refine run.invariant (motive := Emptied) (fun _ => rfl) ?_
  intro p event p' inv ok taken
  rcases step_split taken with hstep | ⟨-, hstep⟩
  · cases hstep with
    | call => exact inv
    | submit found hcase => exact emptied_submit inv ok found hcase
    | worker found hcase => exact emptied_worker ok found hcase
  · exact emptied_shutdown inv hstep

/-! ## When the shutdown returns -/

/-- When `shutdown` has returned, each call of `submit` that returned a future had its task
run, and only once. -/
def Drained (p : ThreadPool α) : Prop :=
  p.closing = some .done → ∀ call submission, p.submits[call]? = some submission →
    submission.pc = .returned →
    ∃ index, (p.ran.filter fun entry => entry.2.call = call) =
      [(index, ⟨call, submission.body⟩)]

/-- Among entries with distinct keys the one with a given key is alone. -/
private theorem filter_eq_singleton {β : Type} {key : β → ℕ} {entries : List β} {entry : β}
    (distinct : (entries.map key).Nodup) (mem : entry ∈ entries) :
    (entries.filter fun other => key other = key entry) = [entry] := by
  induction entries with
  | nil => cases mem
  | cons first rest ih =>
      rw [List.map_cons, List.nodup_cons] at distinct
      rcases List.mem_cons.mp mem with rfl | hrest
      · have hnone : (rest.filter fun other => key other = key entry) = [] := by
          rw [List.filter_eq_nil_iff]
          intro other hother hsame
          apply distinct.1
          rw [← of_decide_eq_true hsame]
          exact List.mem_map_of_mem hother
        rw [List.filter_cons_of_pos (by simp), hnone]
      · have hne : key first ≠ key entry := by
          intro hsame
          apply distinct.1
          rw [hsame]
          exact List.mem_map_of_mem hrest
        rw [List.filter_cons_of_neg (by simpa using hne)]
        exact ih distinct.2 hrest

/-- When every worker has left and no task is queued, what was pushed was run. -/
theorem Recorded.ran_perm (inv : Recorded p) (deserted : Deserted p) (empty : p.tasks = []) :
    (p.ran.map Prod.snd).Perm p.pushed := by
  have hheld : p.workers.filterMap Worker.held = [] := by
    rw [List.filterMap_eq_nil_iff]
    intro worker hmem
    rw [Worker.held, deserted worker hmem]
  have horder := inv.order
  have hassigned := inv.assigned
  rw [empty, List.append_nil] at horder
  rw [hheld, List.append_nil, horder] at hassigned
  exact hassigned

/-- If the last worker to leave leaves an empty queue and nothing is pushed after it left,
`shutdown` drains the pool, whatever the number of its workers and tasks and however
their steps, the calls of `submit` and the shutdown interleave. -/
theorem drained_of_draining {threads hardwareConcurrency : ℕ} {events : List (PoolEvent α)}
    {p : ThreadPool α}
    (run : (machine threads hardwareConcurrency).RunUnder Draining events p) : Drained p := by
  intro hdone call submission hread hreturned
  have hrun := run.mono fun _ _ _ => trivial
  have hrecorded := recorded_run hrun
  have hdeserted := (joined_run hrun).deserted hdone
  have hperm := hrecorded.ran_perm hdeserted (emptied_run run hdeserted)
  have hpushed : (⟨call, submission.body⟩ : PackagedTask α) ∈ p.pushed := by
    refine (hrecorded.pushed _).mpr ⟨submission, hread, rfl, ?_⟩
    rw [Submission.pushed, hreturned]
  obtain ⟨⟨index, task⟩, hran, rfl⟩ := List.mem_map.mp (hperm.mem_iff.mpr hpushed)
  have hdistinct : (p.ran.map fun entry => entry.2.call).Nodup := by
    have hcalls := (hperm.map PackagedTask.call).nodup_iff.mpr hrecorded.distinct
    rwa [List.map_map] at hcalls
  exact ⟨index, @filter_eq_singleton _ (fun entry : ℕ × PackagedTask α => entry.2.call) _ _
    hdistinct hran⟩

/-- Two calls return, a worker is at the first task, and the shutdown has
released it. -/
def untilReleased : List (PoolEvent Bool) :=
  [.call true, .call false] ++ List.replicate 6 (.submit 0) ++ List.replicate 6 (.submit 1) ++
    List.replicate 8 (.worker 0) ++ [.shutdown, .shutdown]

/-- The worker runs both tasks before it is asked to stop. -/
def drainedInTime : List (PoolEvent Bool) :=
  untilReleased ++ List.replicate 15 (.worker 0) ++ List.replicate 3 .shutdown

theorem drained_of_drainedInTime : Drained ((machine 1 16).reached drainedInTime) :=
  drained_of_draining (Machine.runUnder_reached (by decide +kernel))

/-- The worker is asked to stop while it runs the first task. -/
def stoppedEarly : List (PoolEvent Bool) :=
  untilReleased ++ [.shutdown] ++ List.replicate 3 (.worker 0) ++ List.replicate 2 .shutdown

theorem not_drained_of_stoppedEarly :
    ¬ ∀ (threads hardwareConcurrency : ℕ) (events : List (PoolEvent Bool)) (p : ThreadPool Bool),
      (machine threads hardwareConcurrency).Run events p → Drained p := by
  intro drained
  have hrun : (machine 1 16).Run stoppedEarly ((machine 1 16).reached stoppedEarly) :=
    Machine.run_reached (by decide +kernel)
  obtain ⟨index, hran⟩ := drained 1 16 stoppedEarly _ hrun (by decide +kernel) 1 ⟨false, .returned⟩
    (by decide +kernel) rfl
  have hnone : (((machine 1 16).reached stoppedEarly).ran.filter fun entry => entry.2.call = 1) =
      [] := by decide +kernel
  rw [hnone] at hran
  cases hran

end ThreadPool

end Sxaint.Core
