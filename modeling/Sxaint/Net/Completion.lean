/-
# Completion

A transfer is declared complete by a counter, while what is stored is recorded in the
completion bits. The counter stays below the number of set bits as long as no chunk is
marked a second time and none without a bit: the test for a set bit guards the setting of
the bit only, and the count that follows is taken for every chunk that passes its checksum.
-/

import Sxaint.Net.ChunkIndex

namespace Sxaint.Net

open Sxaint.Core Transition

/-- The value of the counter that a chunk task got, once it has counted. -/
def ChunkPc.received? : ChunkPc → Option UInt32
  | .report received => some received
  | .compare received => some received
  | .stored received _ => some received
  | _ => none

/-- Whether a task has marked its chunk and not counted it. -/
def Task.uncounted : Task → Bool
  | .recvChunk _ _ .addBytes => true
  | .recvChunk _ _ .count => true
  | _ => false

namespace Endpoint

variable {P : Platform}

/-- The chunk that is marked as complete in an event. -/
def marking (w : Endpoint) (event : Event) : Option UInt32 :=
  match w.taskAt event with
  | some (.recvChunk header _ .mark) => some header.chunkId
  | _ => none

/-- No chunk is marked that is marked already. -/
def MarksOnce (w : Endpoint) (event : Event) : Prop :=
  ∀ chunkId ∈ w.marking event, w.currentManifest.completedChunks[chunkId.toNat]? ≠ some true

instance (w : Endpoint) (event : Event) : Decidable (MarksOnce w event) :=
  Option.decidableForallMem (w.marking event)

/-- Handshakes are accepted one at a time, each for a file that fits its chunks, and chunks are
marked once. -/
def CountsOnce (w : Endpoint) (event : Event) : Prop :=
  Fitting w event ∧ MarksOnce w event

instance (w : Endpoint) (event : Event) : Decidable (CountsOnce w event) :=
  inferInstanceAs (Decidable (_ ∧ _))

/-- The number of chunks recorded as stored. -/
def storedChunks (w : Endpoint) : ℕ :=
  w.currentManifest.completedChunks.countP id

/-- The counter and the values taken from it stay below the number of set bits. -/
structure Counted (w : Endpoint) : Prop where
  counter : w.chunksRecv.toNat + w.tasks.countP Task.uncounted ≤ w.storedChunks
  received : ∀ header payload pc n, Task.recvChunk header payload pc ∈ w.tasks →
    pc.received? = some n → 0 < n.toNat ∧ n.toNat ≤ w.storedChunks
  complete : w.transComplete = true → w.currentManifest.isComplete = true

theorem storedChunks_le {w : Endpoint} (inv : Exclusive P w) :
    w.storedChunks ≤ w.expectedChunks.toNat := by
  rcases bits_of_exclusive inv with hempty | ⟨-, hlength⟩
  · simp [storedChunks, hempty]
  · rw [← hlength]
    exact List.countP_le_length

/-- A step of a task that leaves the bits alone. -/
private theorem counted_set {index : ℕ} {old new : Task} {w v : Endpoint} (inv : Counted w)
    (found : w.tasks[index]? = some old) (tasks : v.tasks = w.tasks)
    (bits : v.currentManifest.completedChunks = w.currentManifest.completedChunks)
    (counter : v.chunksRecv.toNat + (if new.uncounted then 1 else 0) ≤
      w.chunksRecv.toNat + (if old.uncounted then 1 else 0))
    (received : ∀ header payload pc n, new = .recvChunk header payload pc →
      pc.received? = some n → 0 < n.toNat ∧ n.toNat ≤ w.storedChunks)
    (complete : v.transComplete = true → w.currentManifest.isComplete = true) :
    Counted { v with tasks := v.tasks.set index new } := by
  have hstored : v.storedChunks = w.storedChunks := by rw [storedChunks, bits, storedChunks]
  have hcount := Pool.countP_set_add found Task.uncounted new
  have hold := inv.counter
  refine ⟨?_, fun header payload pc n hmem hreceived => ?_, fun hcomplete => ?_⟩
  · simp only [tasks]
    show v.chunksRecv.toNat + _ ≤ v.storedChunks
    omega
  · simp only [tasks] at hmem
    show 0 < n.toNat ∧ n.toNat ≤ v.storedChunks
    rw [hstored]
    rcases List.mem_or_eq_of_mem_set hmem with hmem | hnew
    · exact inv.received header payload pc n hmem hreceived
    · exact received header payload pc n hnew.symm hreceived
  · have hbefore := complete hcomplete
    rw [TransferManifest.isComplete] at hbefore ⊢
    simp only [bits]
    exact hbefore

/-- A step of a task that runs a handshake, other than the one that allots the bits. -/
private theorem counted_handshake {index : ℕ} {hs : Handshake} {pc next : HandshakePc}
    {w v : Endpoint} (inv : Counted w) (found : w.tasks[index]? = some (.handshake hs pc))
    (tasks : v.tasks = w.tasks)
    (bits : v.currentManifest.completedChunks = w.currentManifest.completedChunks)
    (counter : v.chunksRecv.toNat ≤ w.chunksRecv.toNat)
    (complete : v.transComplete = w.transComplete) :
    Counted { v with tasks := v.tasks.set index (.handshake hs next) } :=
  counted_set inv found tasks bits (by simpa [Task.uncounted] using counter)
    (fun _ _ _ _ h => nomatch h) fun h => inv.complete (complete ▸ h)

/-- A step of a chunk task that neither marks nor counts. -/
private theorem counted_chunk {index : ℕ} {header : ChunkWireHeader} {payload : List UInt8}
    {pc next : ChunkPc} {w v : Endpoint} (inv : Counted w)
    (found : w.tasks[index]? = some (.recvChunk header payload pc)) (tasks : v.tasks = w.tasks)
    (bits : v.currentManifest.completedChunks = w.currentManifest.completedChunks)
    (counter : v.chunksRecv = w.chunksRecv) (complete : v.transComplete = w.transComplete)
    (uncounted : (Task.recvChunk header payload next).uncounted =
      (Task.recvChunk header payload pc).uncounted)
    (received : next.received? = pc.received? ∨ next.received? = none) :
    Counted { v with tasks := v.tasks.set index (.recvChunk header payload next) } := by
  refine counted_set inv found tasks bits (by rw [counter, uncounted]) ?_
    fun h => inv.complete (complete ▸ h)
  intro _ _ _ n hnew hreceived
  cases hnew
  rcases received with hsame | hnone
  · exact inv.received _ _ _ n (List.mem_of_getElem? found) (hsame ▸ hreceived)
  · rw [hnone] at hreceived
    cases hreceived

/-- Allotting the bits: before it no bit is set, so nothing was counted. -/
private theorem counted_allot {index : ℕ} {hs : Handshake} {target : Path} {w : Endpoint}
    (inv : Counted w) (found : w.tasks[index]? = some (.handshake hs (.allot target)))
    (empty : w.currentManifest.completedChunks.length = 0) :
    Counted
      { w with
        currentManifest :=
          { w.currentManifest with
            completedChunks := List.replicate hs.totalChunks.toNat false }
        tasks := w.tasks.set index (.handshake hs (.resetCount target)) } := by
  have hnil := List.eq_nil_of_length_eq_zero empty
  have hnone : w.storedChunks = 0 := by simp [storedChunks, hnil]
  have hcount := Pool.countP_set_add found Task.uncounted (.handshake hs (.resetCount target))
  simp only [Task.uncounted, Bool.false_eq_true, if_false] at hcount
  have hold := inv.counter
  refine ⟨?_, fun header payload pc n hmem hreceived => ?_, fun hcomplete => ?_⟩
  · dsimp only
    omega
  · rcases List.mem_or_eq_of_mem_set hmem with hmem | hnew
    · have := inv.received header payload pc n hmem hreceived
      omega
    · cases hnew
  · have := (TransferManifest.isComplete_iff.mp (inv.complete hcomplete)).1
    exact (this hnil).elim

/-- Marking a chunk that was not marked: one more bit, and one more chunk to count. -/
private theorem counted_mark {index : ℕ} {header : ChunkWireHeader} {payload : List UInt8}
    {w : Endpoint} (inv : Counted w)
    (found : w.tasks[index]? = some (.recvChunk header payload .mark))
    (inside : header.chunkId.toNat < w.currentManifest.completedChunks.length)
    (fresh : w.currentManifest.completedChunks[header.chunkId.toNat]? ≠ some true) :
    Counted
      { w with
        currentManifest :=
          { w.currentManifest with
            completedChunks := w.currentManifest.completedChunks.set header.chunkId.toNat true }
        tasks := w.tasks.set index (.recvChunk header payload .addBytes) } := by
  have hunset : w.currentManifest.completedChunks[header.chunkId.toNat]? = some false := by
    rw [List.getElem?_eq_getElem inside] at fresh ⊢
    simpa using fresh
  have hstored := Pool.countP_set_add hunset id true
  have hcount := Pool.countP_set_add found Task.uncounted (.recvChunk header payload .addBytes)
  simp only [Task.uncounted, id, Bool.false_eq_true, if_false, if_true] at hcount hstored
  have hold := inv.counter
  rw [storedChunks] at hold
  refine ⟨?_, fun header' payload' pc n hmem hreceived => ?_, fun hcomplete => ?_⟩
  · show w.chunksRecv.toNat + _ ≤ List.countP id _
    dsimp only
    omega
  · rcases List.mem_or_eq_of_mem_set hmem with hmem | hnew
    · have := inv.received header' payload' pc n hmem hreceived
      rw [storedChunks] at this
      refine ⟨this.1, ?_⟩
      show n.toNat ≤ List.countP id _
      dsimp only
      omega
    · cases hnew
      cases hreceived
  · exact TransferManifest.isComplete_set (inv.complete hcomplete) _

/-- A task is queued. -/
private theorem counted_submit {new : Task} {w : Endpoint} (inv : Counted w)
    (uncounted : new.uncounted = false)
    (received : ∀ header payload pc, new = .recvChunk header payload pc → pc.received? = none) :
    Counted (w.submit new) := by
  refine ⟨?_, fun header payload pc n hmem hreceived => ?_, inv.complete⟩
  · show w.chunksRecv.toNat + List.countP Task.uncounted (w.tasks ++ [new]) ≤ w.storedChunks
    simpa [uncounted] using inv.counter
  · rcases List.mem_append.mp hmem with hmem | hnew
    · exact inv.received header payload pc n hmem hreceived
    · rw [received header payload pc (List.mem_singleton.mp hnew).symm] at hreceived
      cases hreceived

/-- A step of a receiver that marks no chunk twice and none without a bit. -/
theorem counted_step {pin : UInt32} {outputDir : Path} {event : Event} {w w' : Endpoint}
    (receiver : Receiver pin outputDir w) (exclusive : Exclusive P w) (safe : SafeIndex w)
    (inv : Counted w) (once : MarksOnce w event) (taken : Step P w event w') : Counted w' := by
  cases taken with
  | deliver idle received =>
      cases received with
      | handshake _ => exact counted_submit inv rfl fun _ _ _ h => nomatch h
      | chunk _ _ =>
          refine counted_submit inv rfl fun _ _ _ h => ?_
          cases h
          rfl
      | _ => exact ⟨inv.counter, inv.received, inv.complete⟩
  | network => exact ⟨inv.counter, inv.received, inv.complete⟩
  | @handshake index ok hs pc next v found taken =>
      cases taken with
      | allotted =>
          have hstage := exclusive.stage hs _ (List.mem_of_getElem? found)
            (holds_of_inProgress rfl)
          have hallot := counted_allot inv found hstage.2.2
          exact hallot
      | recount => exact counted_handshake inv found rfl rfl (Nat.zero_le _) rfl
      | _ => exact counted_handshake inv found rfl rfl le_rfl rfl
  | @recvChunk index ok header payload pc next v found taken =>
      cases taken with
      | marked inside =>
          have hmarking : header.chunkId ∈ w.marking (.task index ok) := by
            rw [marking, taskAt, found]
            rfl
          have hmark := counted_mark inv found inside (once _ hmarking)
          exact hmark
      | strayed outside =>
          exact (outside.not_gt (safe header payload (List.mem_of_getElem? found))).elim
      | counted =>
          have hcount := Pool.countP_set_add found Task.uncounted
            (.recvChunk header payload (.report (w.chunksRecv + 1)))
          simp only [Task.uncounted, Bool.false_eq_true, if_false, if_true] at hcount
          have hold := inv.counter
          have hle := storedChunks_le exclusive
          have hlt := w.expectedChunks.toNat_lt
          have hnext : (w.chunksRecv + 1).toNat = w.chunksRecv.toNat + 1 := by
            rw [UInt32.toNat_add]
            exact Nat.mod_eq_of_lt (by simp only [UInt32.reduceToNat]; omega)
          refine counted_set inv found rfl rfl ?_ ?_ inv.complete
          · simp [Task.uncounted, hnext]
          · intro _ _ _ n hnew hreceived
            cases hnew
            cases hreceived
            omega
      | completed last =>
          obtain ⟨hpos, hle⟩ := inv.received header payload _ _ (List.mem_of_getElem? found) rfl
          refine counted_set inv found rfl rfl (by simp [Task.uncounted]) ?_ fun _ => ?_
          · intro _ _ _ n hnew hreceived
            cases hnew
            cases hreceived
            exact ⟨hpos, hle⟩
          · rw [last] at hpos hle
            rcases bits_of_exclusive exclusive with hempty | ⟨-, hlength⟩
            · rw [storedChunks, hempty] at hle
              simp at hle
              omega
            · refine TransferManifest.isComplete_of_countP (fun hnil => ?_) (hlength ▸ hle)
              rw [hnil] at hlength
              simp at hlength
              omega
      | written live result =>
          refine counted_chunk inv found rfl rfl rfl rfl ?_ (.inr ?_)
          · rw [result]
            split <;> rfl
          · rw [result]
            split <;> rfl
      | metered => exact counted_chunk inv found rfl rfl rfl rfl rfl (.inl rfl)
      | reported =>
          rw [reportProgress_eq]
          exact counted_chunk inv found rfl rfl rfl rfl rfl (.inl rfl)
      | finished more => exact counted_chunk inv found rfl rfl rfl rfl rfl (.inl rfl)
      | targeted _ _ | decrypted _ | verified _ _ =>
          exact counted_chunk inv found rfl rfl rfl rfl rfl (.inr rfl)
      | dropped reason =>
          have hbefore := beforeMark_of_drops reason
          refine counted_chunk inv found rfl rfl rfl rfl ?_ (.inr rfl)
          cases pc <;> first | rfl | cases hbefore
      | fault reason => exact counted_chunk inv found rfl rfl rfl rfl rfl (.inl rfl)
  | sendChunk found taken => exact (receiver.tasks _ (List.mem_of_getElem? found)).elim
  | main taken =>
      obtain ⟨-, rfl⟩ := returned_of_mainStep receiver.main taken
      exact ⟨inv.counter, inv.received, inv.complete⟩

theorem counted_run {outputDir : Path} {pin : UInt32} {onProgress : Bool} {disk : List Path}
    {events : List Event} {w : Endpoint}
    (run : (machine P (recvFile outputDir pin onProgress disk)).RunUnder CountsOnce events w) :
    Counted w := by
  induction run with
  | start =>
      refine ⟨by simp [machine, recvFile], fun header payload pc n hmem => ?_, fun h => ?_⟩
      · simp [machine, recvFile] at hmem
      · simp [machine, recvFile] at h
  | snoc prior ok taken ih =>
      exact counted_step (receiver_run prior) (exclusive_run (fun _ _ h => h.1.1) prior)
        (safeIndex_of_fitting (prior.mono fun _ _ h => h.1)) ih ok.2 (step_cases taken).2

/-- In every run that accepts handshakes one at a time, for files that fit their chunks, and
marks no chunk twice, a transfer is declared complete only when every announced chunk is
stored. -/
theorem isComplete_of_transComplete {outputDir : Path} {pin : UInt32} {onProgress : Bool}
    {disk : List Path} {events : List Event} {w : Endpoint}
    (run : (machine P (recvFile outputDir pin onProgress disk)).RunUnder CountsOnce events w)
    (completed : w.transComplete = true) :
    w.currentManifest.isComplete = true ∧
      ∀ i < w.currentManifest.totalChunks.toNat,
        w.currentManifest.completedChunks[i]? = some true := by
  have hcomplete := (counted_run run).complete completed
  obtain ⟨hnonempty, hall⟩ := TransferManifest.isComplete_iff.mp hcomplete
  refine ⟨hcomplete, fun i hi => hall i ?_⟩
  rcases bits_of_exclusive (exclusive_run (fun _ _ h => h.1.1) run) with hempty | ⟨htotal, hlength⟩
  · exact (hnonempty hempty).elim
  · rwa [hlength, ← htotal]

/-- A transfer of one chunk completes. -/
theorem isComplete_of_storage :
    (KnownAnswers.session.reached
      (KnownAnswers.acceptance 1 1 ++ KnownAnswers.storage 1)).currentManifest.isComplete = true :=
  (isComplete_of_transComplete (Machine.runUnder_reached (by decide +kernel))
    (by decide +kernel)).1

/-- Two chunks were announced, and the first one arrived twice. -/
theorem complete_without_second_chunk :
    ∃ w, KnownAnswers.session.Run
        (KnownAnswers.acceptance 1 2 ++ KnownAnswers.storage 1 ++ KnownAnswers.storage 2) w ∧
      w.transComplete = true ∧ w.currentManifest.completedChunks = [true, false] ∧
      w.currentManifest.isComplete = false :=
  ⟨_, Machine.run_reached (by decide +kernel), by decide +kernel, by decide +kernel,
    by decide +kernel⟩

end Endpoint

end Sxaint.Net
