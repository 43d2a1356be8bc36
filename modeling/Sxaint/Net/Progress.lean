/-
# Progress of a receiver

`recvFile` takes a callback and does not store it, so no chunk is ever reported. The line of the
display is made from a byte counter that every accepted chunk adds to, repeated ones too, and that
nothing compares with the size of the file.
-/

import Sxaint.Net.KnownAnswers
import Sxaint.Net.Receiver

namespace Sxaint.Net

open Sxaint.Core Transition

/-- A task whose chunk is accepted and that is behind the call of the callback. -/
def Task.pastReport : Task → Bool
  | .recvChunk _ _ (.compare _) => true
  | .recvChunk _ _ (.stored _ _) => true
  | _ => false

namespace Endpoint

variable {P : Platform}

/-- The callback was invoked once for every accepted chunk, with a percentage, and the line of the
display has a bar of forty characters whatever the speed and the remaining time are. -/
structure Reported (w : Endpoint) : Prop where
  once : w.reports.length = w.tasks.countP Task.pastReport
  range : ∀ percent ∈ w.reports, 0 ≤ percent ∧ percent ≤ 100
  bar : ∀ metrics ∈ w.metrics, ∀ speed eta, ∃ ui,
    metrics.getUiString speed eta = some ui ∧ ui.bar.length = 40

/-- There is no callback and nothing was reported. -/
structure Silent (w : Endpoint) : Prop where
  onProgress : w.onProgress = false
  reports : w.reports = []

theorem reports_of_handshakeStep {hs : Handshake} {pc next : HandshakePc} {w v : Endpoint}
    (taken : HandshakeStep P hs w pc next v) : v.reports = w.reports := by
  cases taken <;> rfl

theorem reports_of_chunkStep {header : ChunkWireHeader} {payload : List UInt8}
    {pc next : ChunkPc} {w v : Endpoint} (silent : Silent w)
    (taken : ChunkStep P header payload w pc next v) : v.reports = w.reports := by
  cases taken with
  | reported =>
      rw [reportProgress]
      split
      · rw [if_neg (by simp [silent.onProgress])]
      · rfl
  | _ => rfl

theorem silent_step {pin : UInt32} {outputDir : Path} {event : Event} {w w' : Endpoint}
    (receiver : Receiver pin outputDir w) (silent : Silent w) (taken : Step P w event w') :
    Silent w' := by
  cases taken with
  | deliver idle received => cases received <;> exact ⟨silent.onProgress, silent.reports⟩
  | network => exact ⟨silent.onProgress, silent.reports⟩
  | handshake found taken =>
      exact ⟨(taskFrame_of_handshakeStep taken).onProgress.trans silent.onProgress,
        (reports_of_handshakeStep taken).trans silent.reports⟩
  | recvChunk found taken =>
      exact ⟨(chunkFrame_of_chunkStep taken).onProgress.trans silent.onProgress,
        (reports_of_chunkStep silent taken).trans silent.reports⟩
  | sendChunk found taken => exact (receiver.tasks _ (List.mem_of_getElem? found)).elim
  | main taken =>
      obtain ⟨-, rfl⟩ := returned_of_mainStep receiver.main taken
      exact ⟨silent.onProgress, silent.reports⟩

variable {outputDir : Path} {pin : UInt32} {onProgress : Bool} {disk : List Path}

/-- No run of a receiver reports anything, with a callback or without. -/
theorem silent_run {allowed : Endpoint → Event → Prop} {events : List Event} {w : Endpoint}
    (run : (machine P (recvFile outputDir pin onProgress disk)).RunUnder allowed events w) :
    Silent w := by
  induction run with
  | start => exact ⟨rfl, rfl⟩
  | snoc prior _ taken ih =>
      exact silent_step (receiver_run prior) ih (step_cases taken).2

/-- In every run with a callback, the progress is right exactly as long as no accepted chunk has
come to its report and the byte counter stays near the size of the file. -/
theorem reported_iff {events : List Event} {w : Endpoint}
    (run : (machine P (recvFile outputDir pin true disk)).Run events w) :
    Reported w ↔
      (∀ task ∈ w.tasks, task.pastReport = false) ∧
        ∀ metrics ∈ w.metrics, metrics.Displayable := by
  have hsilent := silent_run run
  have honce : w.reports.length = w.tasks.countP Task.pastReport ↔
      ∀ task ∈ w.tasks, task.pastReport = false := by
    rw [hsilent.reports, List.length_nil, eq_comm, List.countP_eq_zero]
    simp
  constructor
  · intro reported
    exact ⟨honce.mp reported.once, fun metrics hmem =>
      TransferMetrics.getUiString_iff.mp (reported.bar metrics hmem)⟩
  · rintro ⟨hnone, hdisplayable⟩
    refine ⟨honce.mpr hnone, ?_, fun metrics hmem =>
      TransferMetrics.getUiString_iff.mpr (hdisplayable metrics hmem)⟩
    simp [hsilent.reports]

/-- A file of one byte whose one chunk is sent twice. -/
def twice : List Event :=
  KnownAnswers.acceptance 1 1 ++ KnownAnswers.storage 1 ++ KnownAnswers.storage 2

/-- The receiver of the known runs, with a callback. -/
abbrev observed : Machine Endpoint Event :=
  machine KnownAnswers.platform
    (recvFile KnownAnswers.outputDir 123456 true [KnownAnswers.outputDir])

/-- The task of a chunk has counted it and is about to report. -/
def untilReport : List Event :=
  KnownAnswers.acceptance 1 1 ++ .deliver KnownAnswers.chunkMessage :: KnownAnswers.steps 1 7

/-- Up to there nothing had to be reported, and the bar is full. -/
theorem reported_of_untilReport : Reported (observed.reached untilReport) :=
  (reported_iff (Machine.run_reached (by decide +kernel))).mpr
    ⟨by decide +kernel, by decide +kernel⟩

/-- Both times the chunk is accepted, nothing is reported, and at 200 percent no bar is drawn. -/
theorem not_reported_of_twice :
    let final := observed.reached twice
    final.tasks.countP Task.pastReport = 2 ∧ final.reports = [] ∧
      (final.metrics.bind (·.getUiString [] [])) = none ∧
      final.metrics.map (·.getProgressPer) = some 200 ∧
      ¬ ∀ (P : Platform) (outputDir : Path) (pin : UInt32) (disk : List Path)
        (events : List Event) (w : Endpoint),
        (machine P (recvFile outputDir pin true disk)).Run events w → Reported w := by
  intro final
  have run : observed.Run twice final :=
    Machine.run_reached (by decide +kernel)
  have hcount : final.tasks.countP Task.pastReport = 2 := by decide +kernel
  have hreports : final.reports = [] := (silent_run run).reports
  refine ⟨hcount, hreports, by decide +kernel, by decide +kernel, fun hall => ?_⟩
  have honce := (hall _ _ _ _ _ _ run).once
  rw [hcount, hreports] at honce
  cases honce

end Endpoint

end Sxaint.Net
