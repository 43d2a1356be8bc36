/-
# The handshake latch

The number of expected chunks is the only sign of a handshake in force. A handshake
that announces chunks latches the receiver: whatever arrives and however the tasks
interleave, no further handshake changes the transfer. One that announces none leaves
the receiver open, and the next handshake with the right pin starts over.
-/

import Sxaint.Net.KnownAnswers
import Sxaint.Net.Receiver

namespace Sxaint.Net

open Sxaint.Core Transition

/-- The handshake was accepted, whether or not its initialisation has ended. -/
def HandshakePc.admitted : HandshakePc → Bool
  | .enter => false
  | .answered => false
  | _ => true

/-- Whether a task runs an accepted handshake that announced chunks. -/
def Task.announces : Task → Bool
  | .handshake hs pc => pc.admitted && hs.totalChunks != 0
  | _ => false

namespace Endpoint

variable {P : Platform}

/-- Whether the tasks include an accepted handshake that announced chunks. -/
def announced (w : Endpoint) : Bool :=
  w.tasks.any Task.announces

/-- Only accepting a handshake changes the number of expected chunks, and an accepted
handshake stays one. -/
theorem announced_of_handshakeStep {hs : Handshake} {pc next : HandshakePc} {w v : Endpoint}
    (taken : HandshakeStep P hs w pc next v) :
    (pc = .enter ∧ next = .prepare ∧ w.expectedChunks = 0 ∧ v.expectedChunks = hs.totalChunks) ∨
      (next.admitted = pc.admitted ∧ v.expectedChunks = w.expectedChunks) := by
  cases taken with
  | admitted unlatched right => exact .inl ⟨rfl, rfl, unlatched, rfl⟩
  | searched searching =>
      rcases searching with rfl | ⟨_, _, _, _, rfl⟩ <;> exact .inr ⟨rfl, rfl⟩
  | threw throwing => cases pc <;> first | exact .inr ⟨rfl, rfl⟩ | cases throwing
  | _ => exact .inr ⟨rfl, rfl⟩

/-- A receiver expects chunks exactly if an accepted handshake announced some. -/
theorem announced_step {pin : UInt32} {outputDir : Path} {event : Event} {w w' : Endpoint}
    (receiver : Receiver pin outputDir w) (inv : w.announced = true ↔ w.expectedChunks ≠ 0)
    (taken : Step P w event w') : w'.announced = true ↔ w'.expectedChunks ≠ 0 := by
  cases taken with
  | deliver idle received =>
      cases received with
      | handshake _ | chunk _ _ =>
          simpa [announced, submit, Task.announces, HandshakePc.admitted] using inv
      | _ => exact inv
  | network => exact inv
  | @handshake index ok hs pc next v found taken =>
      have htasks := (taskFrame_of_handshakeStep taken).tasks
      rcases announced_of_handshakeStep taken with ⟨rfl, rfl, hzero, hexpected⟩ | ⟨hsame, hexpected⟩
      · have hsilent : w.tasks.any Task.announces = false := by
          rw [← Bool.not_eq_true]
          exact fun h => inv.mp h hzero
        have hlt := (List.getElem?_eq_some_iff.mp found).1
        have hothers : ∀ task ∈ w.tasks, task.announces = false := by
          simpa using List.any_eq_false.mp hsilent
        simp only [announced, htasks, hexpected, List.any_eq_true]
        constructor
        · rintro ⟨task, hmem, htask⟩
          rcases List.mem_or_eq_of_mem_set hmem with hold | rfl
          · rw [hothers _ hold] at htask
            cases htask
          · simpa [Task.announces, HandshakePc.admitted] using htask
        · intro hnonzero
          exact ⟨_, List.mem_set hlt _,
            by simpa [Task.announces, HandshakePc.admitted] using hnonzero⟩
      · have hany := Pool.any_set (p := Task.announces) found
          (show Task.announces (.handshake hs next) = Task.announces (.handshake hs pc) by
            simp only [Task.announces, hsame])
        simpa only [announced, htasks, hany, hexpected] using inv
  | @recvChunk index ok header payload pc next v found taken =>
      have hframe := chunkFrame_of_chunkStep taken
      have hany := Pool.any_set (p := Task.announces) found
        (show Task.announces (.recvChunk header payload next) =
          Task.announces (.recvChunk header payload pc) from rfl)
      simpa only [announced, hframe.tasks, hany, hframe.expectedChunks] using inv
  | sendChunk found taken => exact (receiver.tasks _ (List.mem_of_getElem? found)).elim
  | main taken =>
      obtain ⟨-, rfl⟩ := returned_of_mainStep receiver.main taken
      exact inv

theorem announced_run {outputDir : Path} {pin : UInt32} {onProgress : Bool} {disk : List Path}
    {events : List Event} {w : Endpoint}
    (run : (machine P (recvFile outputDir pin onProgress disk)).Run events w) :
    w.announced = true ↔ w.expectedChunks ≠ 0 := by
  induction run with
  | start => simp [machine, recvFile, announced]
  | snoc prior ok taken ih => exact announced_step (receiver_run prior) ih (step_cases taken).2

/-- Two states of one transfer: no handshake has been initialised in between. -/
structure SameTransfer (w v : Endpoint) : Prop where
  expectedChunks : v.expectedChunks = w.expectedChunks
  currentManifest : v.currentManifest = w.currentManifest
  currentFilename : v.currentFilename = w.currentFilename
  writeView : v.writeView = w.writeView
  metrics : v.metrics = w.metrics
  chunksRecv : v.chunksRecv = w.chunksRecv
  disk : v.disk = w.disk

/-- The place of a handshake that no worker has looked at, queued or still to come. -/
def Further (w : Endpoint) (index : ℕ) : Prop :=
  w.tasks[index]? = none ∨ ∃ hs, w.tasks[index]? = some (.handshake hs .enter)

/-- Whatever happens from a state on, processing a further handshake changes nothing of
the transfer. -/
def Latched (P : Platform) (w : Endpoint) : Prop :=
  ∀ {events : List Event} {u u' : Endpoint} {index : ℕ} {ok : Bool} {hs : Handshake}
    {pc : HandshakePc}, (machine P w).Run events u → Further w index →
    u.tasks[index]? = some (.handshake hs pc) → step P (.task index ok) u = some u' →
    SameTransfer u u'

/-- What holds after a latched state. -/
private structure AfterLatch (pin : UInt32) (outputDir : Path) (w u : Endpoint) : Prop where
  receiver : Receiver pin outputDir u
  latched : u.expectedChunks ≠ 0
  further : ∀ index hs pc, Further w index → u.tasks[index]? = some (.handshake hs pc) →
    pc = .enter ∨ pc = .answered

/-- While a handshake is in force, one that is looked at is answered or crashes. -/
theorem handshakeStep_of_latched {hs : Handshake} {next : HandshakePc} {w v : Endpoint}
    (latched : w.expectedChunks ≠ 0) (taken : HandshakeStep P hs w .enter next v) :
    (next = .enter ∨ next = .answered) ∧ SameTransfer w v := by
  cases taken with
  | resumed _ _ => exact ⟨.inr rfl, ⟨rfl, rfl, rfl, rfl, rfl, rfl, rfl⟩⟩
  | packFault _ _ => exact ⟨.inl rfl, ⟨rfl, rfl, rfl, rfl, rfl, rfl, rfl⟩⟩
  | rejected unlatched _ => exact (latched unlatched).elim
  | admitted unlatched _ => exact (latched unlatched).elim
  | searched searching => rcases searching with h | ⟨_, _, _, _, h⟩ <;> cases h
  | threw throwing => cases throwing

private theorem afterLatch_step {pin : UInt32} {outputDir : Path} {event : Event}
    {w u u' : Endpoint} (inv : AfterLatch pin outputDir w u) (taken : Step P u event u') :
    AfterLatch pin outputDir w u' := by
  have hreceiver := receiver_step inv.receiver taken
  cases taken with
  | deliver idle received =>
      cases received with
      | handshake carried =>
          refine ⟨hreceiver, inv.latched, fun index hs pc hfurther hread => ?_⟩
          rcases Pool.getElem?_submit_eq_some hread with hold | ⟨-, hnew⟩
          · exact inv.further index hs pc hfurther hold
          · cases hnew
            exact .inl rfl
      | chunk other carried =>
          refine ⟨hreceiver, inv.latched, fun index hs pc hfurther hread => ?_⟩
          rcases Pool.getElem?_submit_eq_some hread with hold | ⟨-, hnew⟩
          · exact inv.further index hs pc hfurther hold
          · cases hnew
      | _ => exact ⟨hreceiver, inv.latched, inv.further⟩
  | network => exact ⟨hreceiver, inv.latched, inv.further⟩
  | @handshake i ok hs pc next v found taken =>
      have htasks := (taskFrame_of_handshakeStep taken).tasks
      refine ⟨hreceiver, ?_, fun index hs' pc' hfurther hread => ?_⟩
      · rcases announced_of_handshakeStep taken with ⟨-, -, hzero, -⟩ | ⟨-, hexpected⟩
        · exact (inv.latched hzero).elim
        · simpa only [hexpected] using inv.latched
      · simp only [htasks] at hread
        rcases Pool.getElem?_set_eq_some hread with ⟨rfl, hnew⟩ | ⟨-, hold⟩
        · cases hnew
          rcases inv.further _ _ _ hfurther found with rfl | rfl
          · exact (handshakeStep_of_latched inv.latched taken).1
          · exact (taken.false_of_returned nofun rfl).elim
        · exact inv.further index hs' pc' hfurther hold
  | recvChunk found taken =>
      have hframe := chunkFrame_of_chunkStep taken
      refine ⟨hreceiver, ?_, fun index hs pc hfurther hread => ?_⟩
      · simpa only [hframe.expectedChunks] using inv.latched
      · simp only [hframe.tasks] at hread
        rcases Pool.getElem?_set_eq_some hread with ⟨-, hnew⟩ | ⟨-, hold⟩
        · cases hnew
        · exact inv.further index hs pc hfurther hold
  | sendChunk found taken => exact (inv.receiver.tasks _ (List.mem_of_getElem? found)).elim
  | main taken =>
      obtain ⟨-, rfl⟩ := returned_of_mainStep inv.receiver.main taken
      exact ⟨hreceiver, inv.latched, inv.further⟩

/-- A receiver that expects chunks is latched. -/
theorem latched_of_expectedChunks {pin : UInt32} {outputDir : Path} {w : Endpoint}
    (receiver : Receiver pin outputDir w) (expects : w.expectedChunks ≠ 0) : Latched P w := by
  intro events u u' index ok hs pc run hfurther hread htaken
  have hinit : AfterLatch pin outputDir w w := by
    refine ⟨receiver, expects, fun index hs pc hfurther hread => .inl ?_⟩
    rcases hfurther with hnone | ⟨hs', henter⟩
    · cases hread.symm.trans hnone
    · cases hread.symm.trans henter
      rfl
  have inv : AfterLatch pin outputDir w u :=
    run.invariant hinit fun state event next inv _ taken =>
      afterLatch_step inv (step_cases (show step P event state = some next from taken)).2
  obtain ⟨-, hstep⟩ := step_cases htaken
  cases hstep with
  | @handshake _ _ _ _ next v found taken =>
      cases hread.symm.trans found
      have hsame : SameTransfer u v := by
        rcases inv.further _ _ _ hfurther found with rfl | rfl
        · exact (handshakeStep_of_latched inv.latched taken).2
        · exact (taken.false_of_returned nofun rfl).elim
      exact { hsame with }
  | recvChunk found _ | sendChunk found _ => cases hread.symm.trans found

/-- A receiver that expects no chunks accepts the next handshake with its pin, whatever
it has done before. -/
theorem not_latched_of_expectedChunks {w : Endpoint} (live : w.fault ≠ .crash)
    (silent : w.expectedChunks = 0) : ¬ Latched P w := by
  intro hlatched
  -- the network thread may have an answer left to publish
  obtain ⟨events, v, hrun, hidle, htasks, hexpected, hlive⟩ :
      ∃ events v, (machine P w).Run events v ∧ v.net = .idle ∧ v.tasks = w.tasks ∧
        v.expectedChunks = w.expectedChunks ∧ v.fault ≠ .crash := by
    cases hnet : w.net with
    | idle => exact ⟨[], w, .start, hnet, rfl, rfl, live⟩
    | publishAcked =>
        exact ⟨[.network], { w with handshakeAcked := true, net := .idle },
          .snoc .start trivial (by simp [machine, step, live, hnet]), rfl, rfl, rfl, live⟩
  let hs : Handshake :=
    { pin := v.expectedPin, fileSize := 0, chunkSize := 0, totalChunks := 1,
      fileName := Handshake.nameField [] }
  have hdeliver : step P (.deliver hs.encode) v = some (v.submit (.handshake hs .enter)) := by
    simp only [step, hlive, hidle, if_false]
    rw [handleRecv_of_handshakeIn (handshakeIn_encode (Handshake.length_nameField []))]
  have hread : (v.submit (.handshake hs .enter)).tasks[v.tasks.length]? =
      some (.handshake hs .enter) := by
    simp [submit]
  have hstep : (step P (.task v.tasks.length true) (v.submit (.handshake hs .enter))).map
      expectedChunks = some 1 := by
    simp [step, submit, hlive, runTask, processHandshake, hexpected, silent, hs]
  obtain ⟨u, htaken, hu⟩ := Option.map_eq_some_iff.mp hstep
  have hqueued : (machine P w).Run (events ++ [.deliver hs.encode])
      (v.submit (.handshake hs .enter)) := hrun.snoc trivial hdeliver
  have hsame := hlatched hqueued (.inl (List.getElem?_eq_none (by rw [htasks]))) hread htaken
  have hone : (1 : UInt32) = w.expectedChunks :=
    hu.symm.trans (hsame.expectedChunks.trans hexpected)
  rw [silent] at hone
  cases hone

/-- In every state a receiver reaches, further handshakes leave the transfer alone
exactly if some accepted handshake announced chunks. -/
theorem latched_iff {outputDir : Path} {pin : UInt32} {onProgress : Bool} {disk : List Path}
    {events : List Event} {w : Endpoint}
    (run : (machine P (recvFile outputDir pin onProgress disk)).Run events w)
    (live : w.fault ≠ .crash) : Latched P w ↔ w.announced = true := by
  rw [announced_run run]
  constructor
  · intro hlatched silent
    exact not_latched_of_expectedChunks live silent hlatched
  · exact latched_of_expectedChunks (receiver_run run)

/-- A transfer of one chunk is latched. -/
theorem latched_of_acceptance :
    Latched KnownAnswers.platform (KnownAnswers.session.reached (KnownAnswers.acceptance 1 1)) :=
  (latched_iff (Machine.run_reached (by decide +kernel)) (by decide +kernel)).mpr
    (by decide +kernel)

/-- A handshake for a file of one byte that announces no chunks has been handled to the
end, and the next handshake with the pin creates a second file. -/
theorem second_handshake_restarts :
    ∃ w u, KnownAnswers.session.Run (KnownAnswers.acceptance 1 0) w ∧
      Task.handshake (Handshake.decode (KnownAnswers.handshakeMessage 123456 1 0)) .accepted ∈
        w.tasks ∧
      KnownAnswers.session.Run
        (KnownAnswers.acceptance 1 0 ++
          .deliver (KnownAnswers.handshakeMessage 123456 1 1) :: KnownAnswers.steps 1 9) u ∧
      u.disk.length = w.disk.length + 1 ∧ ¬ Latched KnownAnswers.platform w :=
  ⟨_, _, Machine.run_reached (by decide +kernel), by decide +kernel,
    Machine.run_reached (by decide +kernel), by decide +kernel,
    not_latched_of_expectedChunks (by decide +kernel) (by decide +kernel)⟩

end Endpoint

end Sxaint.Net
