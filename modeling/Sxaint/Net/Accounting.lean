/-
# The count that a sender waits for

The wait loop of `sendFile` ends when the number of sent chunks has reached the number of
chunks. A skipped chunk is counted by the loop before it, every other one by its task, at the
end of a block whose exceptions are logged and not passed on. So the loop ends exactly if no
task threw, whatever the bits and the schedule; if one did, `sendFile` neither returns nor
throws.
-/

import Sxaint.Net.Submission

namespace Sxaint.Net

open Sxaint.Core Transition

/-- A chunk task that was left by an exception. -/
def Task.threw : Task → Bool
  | .sendChunk _ .failed => true
  | _ => false

/-- A chunk task that has ended has counted its chunk, unless it threw. -/
theorem Task.isCounted_of_ended {task : Task} (job : task.job?.isSome = true)
    (ended : task.isSending = false) (kept : task.threw = false) : task.isCounted = true := by
  cases task with
  | handshake _ _ | recvChunk _ _ _ => cases job
  | sendChunk _ pc =>
      cases pc with
      | sent => rfl
      | failed => cases kept
      | _ => cases ended

theorem Task.threw_of_isCounted {task : Task} (counted : task.isCounted = true) :
    task.threw = false := by
  cases task with
  | handshake _ _ | recvChunk _ _ _ => rfl
  | sendChunk _ pc =>
      cases pc with
      | failed => cases counted
      | _ => rfl

theorem Task.job_of_threw {task : Task} (threw : task.threw = true) :
    task.job?.isSome = true := by
  cases task with
  | sendChunk _ _ => rfl
  | _ => cases threw

namespace Endpoint

variable {P : Platform} {fileName contents : List UInt8} {pin : UInt32} {onProgress : Bool}
  {disk : List Path} {start w : Endpoint} {events : List Event}

/-- All chunks are counted, and the wait loop ends in the next step. -/
structure Accounted (P : Platform) (contents : List UInt8) (w : Endpoint) : Prop where
  counted : w.chunksSent.toNat = (Chunker.slice contents Chunker.kDefaultChunkSize).length
  exits : ∀ strategy waitSnd, ∃ v, mainThread P strategy waitSnd w = some v ∧ v.main = .collect

/-- `sendFile` has returned because of a rejection, and nothing was submitted. -/
def Declined (w : Endpoint) : Prop :=
  w.main = .returned ∧ w.jobs = []

theorem declined_step {event : Event} {v : Endpoint} (declined : w.Declined)
    (taken : step P event w = some v) : v.Declined := by
  obtain ⟨hreturned, hjobs⟩ := declined
  cases event with
  | main strategy waitSnd =>
      have hstuck := mainThread_of_step taken
      simp only [mainThread, hreturned] at hstuck
      cases hstuck
  | _ =>
      obtain ⟨hmain, hsame⟩ := main_eq_of_step (step_cases taken).2 rfl
      exact ⟨hmain.trans hreturned, hsame.trans hjobs⟩

/-- A rejection is looked at before anything is submitted. -/
theorem declined_of_rejected {size count : ℕ} {event : Event} {v : Endpoint}
    (inv : Submitting size count w) (rejected : ¬ w.Unrejected event)
    (taken : step P event w = some v) : v.Declined := by
  cases event with
  | main strategy waitSnd =>
      rw [Unrejected, Classical.not_imp, Classical.not_imp] at rejected
      obtain ⟨-, hchecking, hrejected⟩ := rejected
      have hmain := inv.main
      have hstep := mainThread_of_step taken
      cases hpc : w.main with
      | checkRejected args =>
          rw [hpc] at hmain
          simp only [mainThread, hpc, Bool.not_eq_false _ ▸ hrejected, if_true] at hstep
          cases hstep
          exact ⟨rfl, List.map_eq_nil_iff.mp hmain.2.2.jobs⟩
      | _ =>
          rw [hpc] at hchecking
          cases hchecking
  | _ => exact (rejected (by rintro ⟨⟩)).elim

/-- In every run, a sender is where its counts say, or has returned because of a rejection. -/
theorem submitting_or_declined
    (opened : sendFile fileName contents pin onProgress disk = some start)
    (run : (machine P start).Run events w) :
    Submitting contents.length
        (Chunker.totalChunks contents.length Chunker.kDefaultChunkSize).toNat w ∨
      w.Declined := by
  have hpositive := List.length_pos_iff.mpr (ne_nil_of_sendFile opened)
  induction run with
  | start => exact .inl (submitting_run opened .start).1
  | @snoc events s v event _ _ taken ih =>
      rcases ih with hsubmitting | hdeclined
      · by_cases hunrejected : s.Unrejected event
        · exact .inl (submitting_step hsubmitting hpositive rfl hunrejected taken)
        · exact .inr (declined_of_rejected hsubmitting hunrejected taken)
      · exact .inr (declined_step hdeclined taken)

/-- Once all chunk tasks have ended, the wait loop has what it waits for if and only if none of
them threw, for every file, whatever arrives and however the tasks are scheduled. -/
theorem accounted_iff
    (opened : sendFile fileName contents pin onProgress disk = some start)
    (run : (machine P start).Run events w) {total : UInt32} (waiting : w.main = .drain total)
    (ended : ∀ task ∈ w.tasks, task.isSending = false) :
    w.Accounted P contents ↔ ∀ task ∈ w.tasks, task.threw = false := by
  have hnonempty := ne_nil_of_sendFile opened
  obtain ⟨htotal, hlooked⟩ : total.toNat =
      (Chunker.slice contents Chunker.kDefaultChunkSize).length ∧
        w.LookedAt (chunkIds total.toNat) := by
    rcases submitting_or_declined opened run with hsubmitting | ⟨hreturned, -⟩
    · have hmain := hsubmitting.main
      rw [waiting] at hmain
      obtain ⟨-, htotal, hlooked⟩ := hmain
      rw [Chunker.length_slice_of_ne_nil hnonempty, htotal]
      exact ⟨rfl, hlooked⟩
    · rw [waiting] at hreturned
      cases hreturned
  have hcounts := hlooked.counts
  rw [length_chunkIds] at hcounts
  constructor
  · intro haccounted task hmem
    have hall : (chunkIds total.toNat).length ≤ w.chunksSent.toNat := by
      rw [length_chunkIds, haccounted.counted, htotal]
    cases hthrew : task.threw with
    | false => rfl
    | true =>
        have hdone := isCounted_of_lookedAt hlooked hall task hmem (Task.job_of_threw hthrew)
        rw [Task.threw_of_isCounted hdone] at hthrew
        cases hthrew
  · intro hkept
    have hall : w.tasks.countP Task.isCounted = w.jobs.length := by
      apply le_antisymm (countP_isCounted_le w)
      rw [jobs, List.length_filterMap_eq_countP]
      apply List.countP_mono_left
      intro task hmem hjob
      exact Task.isCounted_of_ended hjob (ended task hmem) (hkept task hmem)
    have hreached : w.chunksSent.toNat = total.toNat := by omega
    refine ⟨hreached.trans htotal, fun strategy waitSnd => ?_⟩
    have hdone : ¬ w.chunksSent < total := by
      rw [UInt32.lt_iff_toNat_lt, hreached]
      exact lt_irrefl _
    simp only [mainThread, waiting, if_neg hdone]
    exact ⟨_, rfl, rfl⟩

/-- Once a task has thrown, `sendFile` never returns: it submits what is left, and waits. -/
theorem waiting_of_threw
    (opened : sendFile fileName contents pin onProgress disk = some start)
    (run : (machine P start).Run events w) {task : Task} (mem : task ∈ w.tasks)
    (threw : task.threw = true) :
    (∃ args strategy total rest, w.main = .submit args strategy total rest) ∨
      ∃ total, w.main = .drain total := by
  have hjobs : w.jobs ≠ [] := by
    intro hnone
    rw [jobs, List.filterMap_eq_nil_iff] at hnone
    have hjob := Task.job_of_threw threw
    rw [hnone task mem] at hjob
    cases hjob
  have hkept {ids : List UInt32} (looked : w.LookedAt ids)
      (all : ids.length ≤ w.chunksSent.toNat) : False := by
    have hdone := isCounted_of_lookedAt looked all task mem (Task.job_of_threw threw)
    rw [Task.threw_of_isCounted hdone] at threw
    cases threw
  have hfresh (looked : w.LookedAt []) : False := hjobs (List.map_eq_nil_iff.mp looked.jobs)
  rcases submitting_or_declined opened run with hsubmitting | ⟨-, hnone⟩
  · have hmain := hsubmitting.main
    generalize w.main = pc at hmain
    cases pc with
    | deriveKey _ | sendHandshake _ | waitAck _ => exact (hfresh hmain.2).elim
    | checkRejected _ | slice _ => exact (hfresh hmain.2.2).elim
    | submit args strategy total rest => exact .inl ⟨args, strategy, total, rest, rfl⟩
    | drain total => exact .inr ⟨total, rfl⟩
    | collect =>
        obtain ⟨-, hcount, hlooked⟩ := hmain
        exact (hkept hlooked (by rw [length_chunkIds]; exact hcount)).elim
    | receiving => exact hmain.elim
    | returned =>
        obtain ⟨-, hcount, hlooked, -⟩ := hmain
        exact (hkept hlooked (by rw [length_chunkIds]; exact hcount)).elim
  · exact (hjobs hnone).elim

/-- The machine of the sender of one byte. -/
abbrev oneByte : Machine Endpoint Event :=
  machine KnownAnswers.platform (KnownAnswers.sender 65)

/-- The sender is acknowledged, its one task sends the chunk, and `sendFile` waits. -/
def counted : List Event :=
  KnownAnswers.submission ++ KnownAnswers.steps 0 5 ++ KnownAnswers.mainSteps 1

theorem accounted_of_counted : Accounted KnownAnswers.platform [65] (oneByte.reached counted) := by
  have hrun : oneByte.Run counted (oneByte.reached counted) :=
    Machine.run_reached (by decide +kernel)
  have hiff := @accounted_iff KnownAnswers.platform [97] [65] 123456 false []
    (KnownAnswers.sender 65) (oneByte.reached counted) counted rfl hrun 1 (by decide +kernel)
    (by decide +kernel)
  exact hiff.mpr (by decide +kernel)

/-- The sender is acknowledged, its one task throws, and `sendFile` waits. -/
def thrown : List Event :=
  KnownAnswers.submission ++ [.task 0 false] ++ KnownAnswers.mainSteps 1

theorem not_accounted_of_thrown :
    oneByte.Run thrown (oneByte.reached thrown) ∧
      (oneByte.reached thrown).main = .drain 1 ∧
      (∀ task ∈ (oneByte.reached thrown).tasks, task.isSending = false) ∧
      ¬ Accounted KnownAnswers.platform [65] (oneByte.reached thrown) := by
  refine ⟨Machine.run_reached (by decide +kernel), by decide +kernel, by decide +kernel, ?_⟩
  intro haccounted
  have hcounted := haccounted.counted
  revert hcounted
  decide +kernel

end Endpoint

end Sxaint.Net
