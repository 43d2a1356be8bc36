/-
# The pin gate

What a handshake with a wrong pin can do. Until a handshake with the right pin has arrived it is
answered by a rejection and changes nothing, whatever other messages come with it, as long as none
of them acknowledges more chunks than it has bits for: a receiver reads these bits too. Once a
handshake is in force the pin is not looked at any more: every handshake is answered with the
completion bits, so the gate is kept exactly by the runs in which wrong pins are tried on an
unlatched receiver only.
-/

import Sxaint.Net.KnownAnswers
import Sxaint.Net.Receiver

namespace Sxaint.Net

open Sxaint.Core Transition

/-- The handshake that an event makes the network thread queue. -/
def Event.handshake? : Event → Option Handshake
  | .deliver data => Endpoint.handshakeIn data
  | _ => none

/-- An event that delivers an acknowledgement with fewer bits than it announces. -/
def Event.IsShortAck : Event → Prop
  | .deliver data => messageKind data = some .handshakeAck ∧ ¬ CarriesBits data
  | _ => False

instance : (event : Event) → Decidable event.IsShortAck
  | .deliver _ => inferInstanceAs (Decidable (_ ∧ _))
  | .network | .task _ _ | .main _ _ => inferInstanceAs (Decidable False)

/-- Whether a task is a handshake that no worker has looked at. -/
def Task.isUnanswered : Task → Bool
  | .handshake _ .enter => true
  | _ => false

namespace Endpoint

variable {P : Platform}

/-! ## Before the first right pin -/

/-- The members of a receiver that has accepted no handshake, over the files that
existed at its start. -/
structure Untouched (disk : List Path) (w : Endpoint) : Prop where
  expectedChunks : w.expectedChunks = 0
  currentManifest : w.currentManifest = {}
  chunksRecv : w.chunksRecv = 0
  aesKey : w.aesKey = []
  metrics : w.metrics = none
  writeView : w.writeView = {}
  transComplete : w.transComplete = false
  fileMapper : w.fileMapper = none
  disk : w.disk = disk

/-- What holds of a task while no right pin has arrived. -/
def UnpairedTask (pin : UInt32) : Task → Prop
  | .handshake hs pc => hs.pin ≠ pin ∧ (pc = .enter ∨ pc = .answered)
  | .recvChunk _ _ pc => pc = .enter ∨ pc = .dropped
  | .sendChunk _ _ => False

/-- The invariant of a receiver no right pin has arrived at. -/
private structure Unpaired (pin : UInt32) (disk : List Path) (events : List Event)
    (w : Endpoint) : Prop extends Untouched disk w where
  expectedPin : w.expectedPin = pin
  main : w.main = .receiving
  tasks : ∀ task ∈ w.tasks, UnpairedTask pin task
  rejections : ∀ frame ∈ w.outbox, frame = (0, handshakeRejectMessage)
  answers : w.outbox.length + w.tasks.countP Task.isUnanswered =
    (events.filterMap Event.handshake?).length
  fault : w.fault ≠ .none → ∃ event ∈ events, event.IsShortAck

/-- One step of a receiver at which no right pin has arrived, if the step brings
none either. -/
private theorem unpaired_step {pin : UInt32} {disk : List Path} {events : List Event}
    {event : Event} {w w' : Endpoint} (inv : Unpaired pin disk events w)
    (wrong : ∀ hs ∈ event.handshake?, hs.pin ≠ pin) (taken : Step P w event w') :
    Unpaired pin disk (events ++ [event]) w' := by
  have hcount := inv.answers
  have hfault : w.fault ≠ .none → ∃ earlier ∈ events ++ [event], earlier.IsShortAck := fun h =>
    (inv.fault h).imp fun _ found => ⟨List.mem_append_left _ found.1, found.2⟩
  have hlength : ((events ++ [event]).filterMap Event.handshake?).length =
      (events.filterMap Event.handshake?).length + event.handshake?.toList.length := by
    cases hsome : event.handshake? <;> simp [hsome]
  cases taken with
  | @deliver data w' idle received =>
      cases received with
      | @handshake hs carried =>
          have hsome : (Event.deliver data).handshake? = some hs := carried
          refine { inv with tasks := ?_, answers := ?_, fault := hfault }
          · exact Pool.forall_submit inv.tasks ⟨wrong hs carried, .inl rfl⟩
          · simp [submit, hsome, Task.isUnanswered]
            omega
      | chunk other carried =>
          have hnone : (Event.deliver data).handshake? = none := other
          refine { inv with tasks := ?_, answers := ?_, fault := hfault }
          · exact Pool.forall_submit inv.tasks (.inl rfl)
          · simpa [hlength, submit, hnone, Task.isUnanswered] using hcount
      | ackFault other short =>
          have hnone : (Event.deliver data).handshake? = none := other
          refine { inv with answers := by simpa [hlength, hnone, crash] using hcount, fault := ?_ }
          exact fun _ => ⟨_, List.mem_append_right _ (List.mem_singleton_self _), short⟩
      | ignored other | acked other _ _ | rejected other =>
          have hnone : (Event.deliver data).handshake? = none := other
          exact { inv with answers := by simpa [hlength, hnone] using hcount, fault := hfault }
  | network => exact { inv with answers := hlength ▸ hcount, fault := hfault }
  | @handshake index ok hs pc next v found taken =>
      obtain ⟨hwrong, hpc⟩ := inv.tasks _ (List.mem_of_getElem? found)
      cases taken with
      | rejected unlatched wrong =>
          refine { inv with tasks := ?_, rejections := ?_, answers := ?_, fault := hfault }
          · exact Pool.forall_set inv.tasks index ⟨hwrong, .inr rfl⟩
          · intro frame hmem
            rcases List.mem_append.mp hmem with hold | hnew
            · exact inv.rejections frame hold
            · exact List.mem_singleton.mp hnew
          · have hset := Pool.countP_set_add found Task.isUnanswered (.handshake hs .answered)
            simp only [Task.isUnanswered, if_true, Bool.false_eq_true, if_false] at hset
            simp only [hlength, sendChunk, List.length_append, List.length_singleton,
              Event.handshake?, Option.toList_none, List.length_nil]
            omega
      | resumed latched _ => exact (latched inv.expectedChunks).elim
      | admitted unlatched right => exact (hwrong (right.trans inv.expectedPin)).elim
      | packFault packing _ =>
          rcases packing with ⟨-, hlatched⟩ | rfl
          · exact (hlatched inv.expectedChunks).elim
          · rcases hpc with h | h <;> cases h
      | searched searching =>
          rcases searching with rfl | ⟨_, _, _, _, rfl⟩ <;> rcases hpc with h | h <;> cases h
      | threw throwing => rcases hpc with rfl | rfl <;> cases throwing
      | _ => rcases hpc with h | h <;> cases h
  | @recvChunk index ok header payload pc next v found taken =>
      have hpc : pc = .enter ∨ pc = .dropped := inv.tasks _ (List.mem_of_getElem? found)
      cases taken with
      | dropped reason =>
          refine { inv with tasks := ?_, answers := ?_, fault := hfault }
          · exact Pool.forall_set inv.tasks index (.inr rfl)
          · have hset := Pool.countP_set_add found Task.isUnanswered
              (.recvChunk header payload .dropped)
            simp only [Task.isUnanswered, Bool.false_eq_true, if_false] at hset
            simp only [hlength, Event.handshake?, Option.toList_none, List.length_nil]
            omega
      | targeted nonempty _ => exact (nonempty (by rw [inv.writeView])).elim
      | fault reason => rcases hpc with rfl | rfl <;> exact reason.elim
      | _ => rcases hpc with h | h <;> cases h
  | sendChunk found taken => exact (inv.tasks _ (List.mem_of_getElem? found)).elim
  | main taken =>
      obtain ⟨hcomplete, -⟩ := returned_of_mainStep (.inl inv.main) taken
      rw [inv.transComplete] at hcomplete
      cases hcomplete

private theorem unpaired_run {outputDir : Path} {pin : UInt32} {onProgress : Bool}
    {disk : List Path} {events : List Event} {w : Endpoint}
    (run : (machine P (recvFile outputDir pin onProgress disk)).Run events w)
    (wrong : ∀ event ∈ events, ∀ hs ∈ event.handshake?, hs.pin ≠ pin) :
    Unpaired pin disk events w := by
  induction run with
  | start =>
      exact ⟨⟨rfl, rfl, rfl, rfl, rfl, rfl, rfl, rfl, rfl⟩, rfl, rfl,
        by simp [machine, recvFile], by simp [machine, recvFile], rfl,
        by simp [machine, recvFile]⟩
  | @snoc events w w' event _ _ taken ih =>
      exact unpaired_step (ih fun other hmem => wrong other (List.mem_append_left _ hmem))
        (wrong event (List.mem_append_right _ (List.mem_singleton_self _))) (step_cases taken).2

/-- The receiver is as it was. It has sent rejections only, one for each handshake of full size
that a worker has looked at, and the next look at any other is answered by a rejection too. -/
structure RejectsOnly (P : Platform) (disk : List Path) (events : List Event) (w : Endpoint) :
    Prop extends Untouched disk w where
  rejections : ∀ frame ∈ w.outbox, frame = (0, handshakeRejectMessage)
  answers : w.outbox.length + w.tasks.countP Task.isUnanswered =
    (events.filterMap Event.handshake?).length
  pending : ∀ index hs, w.tasks[index]? = some (.handshake hs .enter) → ∀ ok,
    ∃ w', step P (.task index ok) w = some w' ∧ sent w w' = [(0, handshakeRejectMessage)]

/-- A worker that has not crashed answers a wrong pin. -/
private theorem Unpaired.exists_rejection {pin : UInt32} {disk : List Path} {events : List Event}
    {w : Endpoint} (inv : Unpaired pin disk events w) (live : w.fault ≠ .crash) {index : ℕ}
    {hs : Handshake} (found : w.tasks[index]? = some (.handshake hs .enter)) (ok : Bool) :
    ∃ w', step P (.task index ok) w = some w' ∧ sent w w' = [(0, handshakeRejectMessage)] := by
  obtain ⟨hwrong, -⟩ := inv.tasks _ (List.mem_of_getElem? found)
  have hpin : hs.pin ≠ w.expectedPin := inv.expectedPin ▸ hwrong
  let answered : Endpoint :=
    { w.sendChunk handshakeRejectMessage 0 with
      tasks := w.tasks.set index (.handshake hs .answered) }
  have hsent : sent w answered = [(0, handshakeRejectMessage)] := sent_of_outbox rfl
  have hlook : processHandshake P hs .enter ok w =
      some (.answered, w.sendChunk handshakeRejectMessage 0) := by
    simp [processHandshake, inv.expectedChunks, hpin]
  refine ⟨answered, ?_, hsent⟩
  simp only [step, if_neg live, found, runTask, hlook, Option.map_some]
  rfl

/-- Until a handshake with the right pin arrives, whatever else arrives leaves the receiver as it
was and is answered by rejections only, if no acknowledgement is shorter than the bits it
announces. -/
theorem rejectsOnly_of_wrong_pins {outputDir : Path} {pin : UInt32} {onProgress : Bool}
    {disk : List Path} {events : List Event} {w : Endpoint}
    (run : (machine P (recvFile outputDir pin onProgress disk)).Run events w)
    (wrong : ∀ event ∈ events, ∀ hs ∈ event.handshake?, hs.pin ≠ pin)
    (whole : ∀ event ∈ events, ¬ event.IsShortAck) :
    RejectsOnly P disk events w ∧ w.fault = .none := by
  have inv := unpaired_run run wrong
  have hnone : w.fault = .none := by
    by_contra hfault
    obtain ⟨event, hmem, hshort⟩ := inv.fault hfault
    exact whole event hmem hshort
  refine ⟨⟨inv.toUntouched, inv.rejections, inv.answers, fun index hs found ok => ?_⟩, hnone⟩
  exact inv.exists_rejection (by rw [hnone]; rintro ⟨⟩) found ok

/-- A wrong pin, a chunk and an acknowledgement for a fresh receiver. -/
def unpairedEvents : List Event :=
  [.deliver (KnownAnswers.handshakeMessage 654321 1 1),
    .deliver KnownAnswers.chunkMessage,
    .deliver (ackMessage 1 [0]), .network] ++
    KnownAnswers.steps 1 1

theorem rejectsOnly_of_unpairedEvents :
    RejectsOnly KnownAnswers.platform [KnownAnswers.outputDir] unpairedEvents
        (KnownAnswers.session.reached unpairedEvents) ∧
      (KnownAnswers.session.reached unpairedEvents).fault = .none :=
  rejectsOnly_of_wrong_pins (Machine.run_reached (by decide +kernel)) (by decide +kernel)
    (by decide +kernel)

/-- A wrong pin, and an acknowledgement of one chunk without its bit. -/
def shortAckEvents : List Event :=
  [.deliver (KnownAnswers.handshakeMessage 654321 1 1), .deliver [2, 1, 0, 0, 0]]

/-- The wrong pin is never answered. -/
theorem unanswered_of_shortAck :
    ¬ ∀ (P : Platform) (outputDir : Path) (pin : UInt32) (onProgress : Bool) (disk : List Path)
      (events : List Event) (w : Endpoint),
      (machine P (recvFile outputDir pin onProgress disk)).Run events w →
        (∀ event ∈ events, ∀ hs ∈ event.handshake?, hs.pin ≠ pin) →
          RejectsOnly P disk events w := by
  intro rejects
  have hrun :
      KnownAnswers.session.Run shortAckEvents (KnownAnswers.session.reached shortAckEvents) :=
    Machine.run_reached (by decide +kernel)
  have hpending := (rejects _ _ _ _ _ _ _ hrun (by decide +kernel)).pending 0
    (Handshake.decode (KnownAnswers.handshakeMessage 654321 1 1)) (by decide +kernel) true
  obtain ⟨w', htaken, -⟩ := hpending
  have hstuck : step KnownAnswers.platform (.task 0 true)
      (KnownAnswers.session.reached shortAckEvents) = none := by decide +kernel
  cases hstuck.symm.trans htaken

/-! ## After it -/

/-- The gate that a pin is meant to be, for one step: what acknowledges a handshake
is a task whose handshake has the right pin, and a handshake with a wrong pin is
answered by a rejection. -/
def PinGate (w : Endpoint) (event : Event) (w' : Endpoint) : Prop :=
  (∀ frame ∈ sent w w', IsAck frame →
    ∃ hs pc, w.taskAt event = some (.handshake hs pc) ∧ hs.pin = w.expectedPin) ∧
  ∀ hs ∈ w.entering event, hs.pin ≠ w.expectedPin →
    sent w w' = [(0, handshakeRejectMessage)]

/-- No handshake with a wrong pin is looked at while another one is in force. -/
def WrongPinUnlatched (w : Endpoint) (event : Event) : Prop :=
  ∀ hs ∈ w.entering event, hs.pin ≠ w.expectedPin → w.expectedChunks = 0

/-- A step keeps the gate exactly if no wrong pin is tried in it on a receiver with a
handshake in force. -/
theorem pinGate_iff {pin : UInt32} {outputDir : Path} {event : Event} {w w' : Endpoint}
    (inv : Receiver pin outputDir w) (taken : Step P w event w') :
    PinGate w event w' ↔ WrongPinUnlatched w event := by
  have hanswer := answer_of_step inv taken
  constructor
  · rintro ⟨-, hreject⟩ hs found hwrong
    rw [hreject hs found hwrong] at hanswer
    generalize hframes : [((0 : UInt32), handshakeRejectMessage)] = frames at hanswer
    cases hanswer with
    | silent => cases hframes
    | acked _ _ _ => cases hframes
    | rejected _ unlatched _ => exact unlatched
  · intro hopen
    constructor
    · intro frame hmem hack
      generalize sent w w' = frames at hanswer hmem
      cases hanswer with
      | silent => cases hmem
      | @acked hs pc packed found answering written =>
          refine ⟨hs, pc, found, ?_⟩
          rcases answering with ⟨rfl, latched⟩ | rfl
          · exact not_not.mp fun hwrong => latched (hopen hs (mem_entering.mpr found) hwrong)
          · exact (handshake_of_taskAt inv found (.inl rfl)).trans inv.expectedPin.symm
      | rejected _ _ _ =>
          obtain rfl := List.mem_singleton.mp hmem
          cases hack
    · intro hs found hwrong
      have hunlatched := hopen hs found hwrong
      obtain ⟨index, ok, rfl, hread⟩ := index_of_taskAt (mem_entering.mp found)
      cases taken with
      | @handshake _ _ _ _ _ _ found taken =>
          cases hread.symm.trans found
          cases taken with
          | rejected unlatched wrong => exact sent_of_outbox rfl
          | resumed latched _ => exact (latched hunlatched).elim
          | admitted _ right => exact (hwrong right).elim
          | packFault packing _ =>
              rcases packing with ⟨-, latched⟩ | h
              · exact (latched hunlatched).elim
              · cases h
          | searched searching =>
              rcases searching with h | ⟨_, _, _, _, h⟩ <;> cases h
          | threw throwing => cases throwing
      | recvChunk found _ | sendChunk found _ => cases hread.symm.trans found

/-- The gate is kept by exactly the runs that look at wrong pins on an unlatched
receiver only. -/
theorem pinGate_run_iff {outputDir : Path} {pin : UInt32} {onProgress : Bool}
    {disk : List Path} {events : List Event} {w : Endpoint} :
    (machine P (recvFile outputDir pin onProgress disk)).RunUnder WrongPinUnlatched events w ↔
      (machine P (recvFile outputDir pin onProgress disk)).RunUnder
        ((machine P (recvFile outputDir pin onProgress disk)).Keeps PinGate) events w := by
  constructor <;> intro run
  · refine run.refine fun labels state event next prior open_ _ last taken => ?_
    exact (pinGate_iff (receiver_run prior) (step_cases taken).2).mpr open_
  · refine run.refine fun labels state event next prior keeps taken => ?_
    exact (pinGate_iff (receiver_run prior) (step_cases taken).2).mp (keeps next taken)

/-- A handshake with the right pin is handled, then one with a wrong pin arrives. -/
def lateWrongPinEvents : List Event :=
  KnownAnswers.acceptance 1 1 ++ [.deliver (KnownAnswers.handshakeMessage 654321 1 1)]

/-- The late handshake is acknowledged, with the completion bits. -/
theorem late_wrong_pin_acknowledged :
    ∃ w w', KnownAnswers.session.Run lateWrongPinEvents w ∧
      step KnownAnswers.platform (.task 1 true) w = some w' ∧
      sent w w' = [(0, ackMessage 1 [0])] ∧ ¬ PinGate w (.task 1 true) w' := by
  refine ⟨_, KnownAnswers.session.reached (lateWrongPinEvents ++ [.task 1 true]),
    Machine.run_reached (by decide +kernel), by decide +kernel, by decide +kernel, ?_⟩
  intro hgate
  have hreject := hgate.2 (Handshake.decode (KnownAnswers.handshakeMessage 654321 1 1))
    (by decide +kernel) (by decide +kernel)
  revert hreject
  decide +kernel

end Endpoint

end Sxaint.Net
