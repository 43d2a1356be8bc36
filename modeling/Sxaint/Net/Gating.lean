/-
# The gate of a sender

What the answers of a receiver can do to a sender. The network thread writes the bits and
the two flags in separate steps while `sendFile` polls them, and the first answer that
counts decides: after a rejection no chunk is submitted, and after an acknowledgement the
chunks whose bits are clear in it. Whatever else arrives changes neither.
-/

import Sxaint.Net.Receiver
import Sxaint.Net.SenderRole
import Sxaint.Net.Transfer

namespace Sxaint.Net

open Sxaint.Core Transition

/-- A message that answers a handshake. -/
def IsAnswer (data : List UInt8) : Prop :=
  messageKind data = some .handshakeReject ∨
    messageKind data = some .handshakeAck ∧ CarriesBits data

instance (data : List UInt8) : Decidable (IsAnswer data) :=
  inferInstanceAs (Decidable (_ ∨ _))

/-- What arrives are answers. -/
def Event.IsAnswering (event : Event) : Prop :=
  ∀ data ∈ event.delivered?, IsAnswer data

instance (event : Event) : Decidable event.IsAnswering :=
  Option.decidableForallMem event.delivered?

/-- An acknowledgement of full size. -/
def acknowledges (data : List UInt8) : Bool :=
  messageKind data = some .handshakeAck ∧ HandshakeAck.size ≤ data.length

/-- An answer that counts. -/
def decides (data : List UInt8) : Bool :=
  messageKind data = some .handshakeReject ∨ acknowledges data

/-- The first answer that counts. -/
def firstAnswer (events : List Event) : Option (List UInt8) :=
  (deliveries events).find? decides

theorem firstAnswer_concat (events : List Event) (event : Event) :
    firstAnswer (events ++ [event]) =
      (firstAnswer events).or (event.delivered?.filter decides) := by
  rw [firstAnswer, deliveries, List.filterMap_append, List.find?_append]
  cases event with
  | deliver data =>
      show (firstAnswer events).or ([data].find? decides) =
        (firstAnswer events).or ((some data).filter decides)
      by_cases hdecides : decides data = true
      · rw [Option.filter_some, if_pos hdecides, List.find?_cons_of_pos hdecides]
      · rw [Option.filter_some, if_neg hdecides, List.find?_cons_of_neg hdecides, List.find?_nil]
  | network | task _ _ | main _ _ => rfl

/-- Whether the thread of `sendFile` is past the test for a rejection and has not returned. -/
def MainPc.admitted : MainPc → Bool
  | .slice _ => true
  | .submit _ _ _ _ => true
  | .drain _ => true
  | .collect => true
  | _ => false

namespace Endpoint

variable {P : Platform}

/-- A rejection is stored before it is published. -/
theorem handleRecv_of_rejection {data : List UInt8}
    (kind : messageKind data = some .handshakeReject) (w : Endpoint) :
    handleRecv data w = { w with handshakeRejected := true, net := .publishAcked } := by
  cases data with
  | nil => cases kind
  | cons type rest =>
      rw [handleRecv, show MessageType.ofByte type = _ from kind]

theorem handleRecv_of_acknowledgement {data : List UInt8}
    (kind : messageKind data = some .handshakeAck) (w : Endpoint) :
    handleRecv data w = processHandshakeACk data w := by
  cases data with
  | nil => cases kind
  | cons type rest =>
      rw [handleRecv, show MessageType.ofByte type = _ from kind]

/-! ## The first answer -/

/-- The members through which the network thread answers `sendFile`. -/
structure AnswerFrame (w v : Endpoint) : Prop where
  acked : v.handshakeAcked = w.handshakeAcked
  rejected : v.handshakeRejected = w.handshakeRejected
  resumeBitfield : v.resumeBitfield = w.resumeBitfield
  net : v.net = w.net

/-- Only the network thread assigns them. -/
theorem answerFrame_of_step {event : Event} {w w' : Endpoint} (taken : Step P w event w')
    (other : event.delivered? = none) (silent : event ≠ .network) : AnswerFrame w w' := by
  cases taken with
  | deliver _ _ => cases other
  | network => exact (silent rfl).elim
  | handshake _ taken =>
      have hframe := taskFrame_of_handshakeStep taken
      exact ⟨hframe.handshakeAcked, hframe.handshakeRejected, hframe.resumeBitfield, hframe.net⟩
  | recvChunk _ taken =>
      have hframe := chunkFrame_of_chunkStep taken
      exact ⟨hframe.handshakeAcked, hframe.handshakeRejected, hframe.resumeBitfield, hframe.net⟩
  | sendChunk _ taken => cases taken <;> constructor <;> rfl
  | main taken =>
      generalize w.main = pc at taken
      cases taken with
      | polled _ =>
          rw [reportProgress_eq]
          constructor <;> rfl
      | _ => constructor <;> rfl

/-- What the first answer has made the network thread store. -/
def Stored (w : Endpoint) (data : List UInt8) : Prop :=
  messageKind data = some .handshakeAck ∧ ackBits data = some w.resumeBitfield ∨
    messageKind data = some .handshakeReject ∧ w.handshakeRejected = true

/-- How far the network thread is with the first answer. -/
def Answered (w : Endpoint) : Option (List UInt8) → Prop
  | none => w.handshakeAcked = false ∧ w.handshakeRejected = false ∧ w.net = .idle
  | some data => (w.handshakeAcked = true ∨ w.net = .publishAcked) ∧ w.Stored data

theorem answered_of_frame {w v : Endpoint} {first : Option (List UInt8)}
    (answered : w.Answered first) (frame : AnswerFrame w v) : v.Answered first := by
  cases first with
  | none =>
      exact ⟨frame.acked.trans answered.1, frame.rejected.trans answered.2.1,
        frame.net.trans answered.2.2⟩
  | some data =>
      obtain ⟨hpublished, hstored⟩ := answered
      constructor
      · rw [frame.acked, frame.net]
        exact hpublished
      · rw [Stored, frame.resumeBitfield, frame.rejected]
        exact hstored

/-- A further message, between two of which the answer is published. -/
theorem answered_of_received {w : Endpoint} {data : List UInt8} {first : Option (List UInt8)}
    (answered : w.Answered first) (idle : w.net = .idle) (answer : IsAnswer data) :
    (handleRecv data w).Answered (first.or ((some data).filter decides)) := by
  cases first with
  | none =>
      obtain ⟨hunacked, hunrejected, -⟩ := answered
      rcases answer with hkind | ⟨hkind, hcarries⟩
      · have hdecides : decides data = true := by simp [decides, hkind]
        rw [handleRecv_of_rejection hkind, Option.none_or, Option.filter_some, if_pos hdecides]
        exact ⟨.inr rfl, .inr ⟨hkind, rfl⟩⟩
      · rw [handleRecv_of_acknowledgement hkind, processHandshakeACk, if_neg (by simp [hunacked])]
        by_cases hwhole : HandshakeAck.size ≤ data.length
        · have hdecides : decides data = true := by simp [decides, acknowledges, hkind, hwhole]
          obtain ⟨bits, hbits⟩ := ackBits_of_carriesBits hwhole hcarries
          rw [if_neg (by omega), Option.none_or, Option.filter_some, if_pos hdecides]
          dsimp only
          rw [show BitField.readBits _ _ = some bits from hbits]
          exact ⟨.inr rfl, .inl ⟨hkind, hbits⟩⟩
        · have hignored : decides data = false := by simp [decides, acknowledges, hkind, hwhole]
          rw [if_pos (by omega), Option.none_or, Option.filter_some, hignored]
          exact ⟨hunacked, hunrejected, idle⟩
  | some ack =>
      obtain ⟨hpublished, hstored⟩ := answered
      have hacked : w.handshakeAcked = true := by
        apply hpublished.resolve_right
        rw [idle]
        rintro ⟨⟩
      rw [Option.some_or]
      rcases answer with hkind | ⟨hkind, -⟩
      · rw [handleRecv_of_rejection hkind]
        exact ⟨.inl hacked, hstored.imp_right fun h => ⟨h.1, rfl⟩⟩
      · rw [handleRecv_of_acknowledgement hkind, processHandshakeACk, if_pos hacked]
        exact ⟨.inl hacked, hstored⟩

theorem answered_step {event : Event} {w w' : Endpoint} {first : Option (List UInt8)}
    (answered : w.Answered first) (answering : event.IsAnswering)
    (taken : step P event w = some w') :
    w'.Answered (first.or (event.delivered?.filter decides)) := by
  have hstep := (step_cases taken).2
  cases event with
  | deliver data =>
      obtain ⟨hidle, rfl⟩ := deliver_of_step taken
      exact answered_of_received answered hidle (answering data rfl)
  | network =>
      show w'.Answered (first.or none)
      rw [Option.or_none]
      obtain ⟨hpublishing, rfl⟩ := publishing_of_step taken
      cases first with
      | none =>
          -- without an answer there is nothing to publish
          cases answered.2.2.symm.trans hpublishing
      | some data => exact ⟨.inl rfl, answered.2⟩
  | task _ _ | main _ _ =>
      show w'.Answered (first.or none)
      rw [Option.or_none]
      exact answered_of_frame answered (answerFrame_of_step hstep rfl (by rintro ⟨⟩))

/-- Only the thread of `sendFile` moves on and submits chunk tasks. -/
theorem main_eq_of_step {event : Event} {w w' : Endpoint} (taken : Step P w event w')
    (other : event.strategy? = none) : w'.main = w.main ∧ w'.jobs = w.jobs := by
  have hsubmit {v : Endpoint} {new : Task} (job : new.job? = none) :
      (v.submit new).main = v.main ∧ (v.submit new).jobs = v.jobs := by
    refine ⟨rfl, ?_⟩
    simp [jobs, submit, job]
  have hset {v : Endpoint} {index : ℕ} {old new : Task} (found : w.tasks[index]? = some old)
      (main : v.main = w.main) (tasks : v.tasks = w.tasks) (job : new.job? = old.job?) :
      v.main = w.main ∧ Endpoint.jobs { v with tasks := v.tasks.set index new } = w.jobs := by
    refine ⟨main, ?_⟩
    simp only [jobs, tasks]
    exact Pool.filterMap_set_eq found Task.job? job
  cases taken with
  | deliver _ received =>
      cases received with
      | handshake _ | chunk _ _ => exact hsubmit rfl
      | _ => exact ⟨rfl, rfl⟩
  | network => exact ⟨rfl, rfl⟩
  | handshake found taken =>
      have hframe := taskFrame_of_handshakeStep taken
      exact hset found hframe.main hframe.tasks rfl
  | recvChunk found taken =>
      have hframe := chunkFrame_of_chunkStep taken
      exact hset found hframe.main hframe.tasks rfl
  | sendChunk found taken =>
      have hframe := senderFrame_of_sendStep taken
      exact hset found hframe.main hframe.tasks rfl
  | main _ => cases other

/-! ## The loop over the chunks -/

/-- An answer adds no task, and what it carries can be read. -/
theorem handleRecv_of_answer {data : List UInt8} (answer : IsAnswer data) (w : Endpoint) :
    (handleRecv data w).tasks = w.tasks ∧ (handleRecv data w).fault = w.fault := by
  rcases answer with hkind | ⟨hkind, hcarries⟩
  · rw [handleRecv_of_rejection hkind]
    exact ⟨rfl, rfl⟩
  · rw [handleRecv_of_acknowledgement hkind, processHandshakeACk]
    split
    · exact ⟨rfl, rfl⟩
    · split
      · exact ⟨rfl, rfl⟩
      · rename_i hlong
        obtain ⟨bits, hbits⟩ := ackBits_of_carriesBits (not_lt.mp hlong) hcarries
        dsimp only
        rw [show BitField.readBits _ _ = some bits from hbits]
        exact ⟨rfl, rfl⟩

/-- The jobs of a sender are those of chunks of its file. -/
theorem exists_chunk_of_job {setUp : SetUp} {chosen : Strategy → Prop} {w : Endpoint}
    (sender : Sender P setUp chosen w) {job : SendJob} (mem : job ∈ w.jobs) :
    ∃ strategy, ∃ chunk ∈ setUp.chunks,
      job = SendJob.ofChunk setUp.args.fileView strategy chunk := by
  have hchunk {bits : List Bool} {strategy : Strategy} {done : List Chunk}
      (jobs : w.jobs = SendJob.ofChunks bits setUp.args.fileView strategy done) :
      ∃ chunk ∈ done, job = SendJob.ofChunk setUp.args.fileView strategy chunk := by
    rw [jobs] at mem
    obtain ⟨chunk, hchunk, hjob⟩ := List.mem_map.mp mem
    exact ⟨chunk, (List.mem_filter.mp hchunk).1, hjob.symm⟩
  have hmain := sender.main
  generalize w.main = pc at hmain
  cases pc with
  | deriveKey _ | sendHandshake _ | waitAck _ =>
      rw [hmain.2.2] at mem
      cases mem
  | checkRejected _ | slice _ =>
      rw [hmain.2.2.1] at mem
      cases mem
  | submit _ strategy _ rest =>
      obtain ⟨-, -, -, -, done, hdone, hjobs⟩ := hmain
      obtain ⟨chunk, hmem, hjob⟩ := hchunk hjobs
      exact ⟨strategy, chunk, hdone ▸ List.mem_append_left rest hmem, hjob⟩
  | drain _ | collect =>
      obtain ⟨-, -, strategy, -, hjobs⟩ := hmain
      exact ⟨strategy, hchunk hjobs⟩
  | receiving => exact hmain.elim
  | returned =>
      obtain ⟨-, -, ⟨-, hjobs⟩ | ⟨strategy, -, hjobs⟩⟩ := hmain
      · rw [hjobs] at mem
        cases mem
      · exact ⟨strategy, hchunk hjobs⟩

/-- The chunks of a sender's tasks lie in its file. -/
theorem read_of_job {fileName contents : List UInt8} {pin : UInt32} {disk : List Path}
    {chosen : Strategy → Prop} {w : Endpoint} (nonempty : contents ≠ [])
    (sender : Sender P (SetUp.ofFile fileName contents pin disk) chosen w) {job : SendJob}
    (mem : job ∈ w.jobs) : job.data.read w.fileMapper ≠ none := by
  obtain ⟨strategy, chunk, hchunk, rfl⟩ := exists_chunk_of_job sender mem
  obtain ⟨i, hi, rfl⟩ := (Chunker.mem_slice nonempty).mp hchunk
  rw [sender.fileMapper]
  have hread := @SendJob.read_ofChunk (SetUp.ofFile fileName contents pin disk).view
    (SetUp.ofFile fileName contents pin disk).args.fileView rfl rfl strategy i hi
  exact hread.trans_ne (Option.some_ne_none _)

/-- The invariant of a sender that is sent answers only, the first of which is given. -/
structure Gate (P : Platform) (setUp : SetUp) (first : Option (List UInt8)) (w : Endpoint) :
    Prop where
  sender : Sender P setUp (fun _ => True) w
  live : w.fault = .none
  own : ∀ task ∈ w.tasks, ∃ job pc, task = .sendChunk job pc
  answered : w.Answered first
  gate : w.main.admitted = true ∨ w.jobs ≠ [] →
    ∃ ack, first = some ack ∧ messageKind ack = some .handshakeAck

section Gate

variable {fileName contents : List UInt8} {pin : UInt32} {disk : List Path}
  {first : Option (List UInt8)} {w : Endpoint}

/-- Without handshakes there is none to look at. -/
theorem Gate.noZeroPin {setUp : SetUp} (inv : Gate P setUp first w) (event : Event) :
    NoZeroPin w event := by
  intro hs hentering
  obtain ⟨index, ok, rfl, hread⟩ := index_of_taskAt (mem_entering.mp hentering)
  obtain ⟨job, pc, htask⟩ := inv.own _ (List.mem_of_getElem? hread)
  cases htask

/-- Once `sendFile` has seen the flag of an answer without a rejection, the answer is an
acknowledgement. -/
theorem Gate.acknowledged {setUp : SetUp} (inv : Gate P setUp first w)
    (acked : w.handshakeAcked = true) (agreed : w.handshakeRejected = false) :
    ∃ ack, first = some ack ∧ messageKind ack = some .handshakeAck := by
  have hanswered := inv.answered
  cases first with
  | none =>
      rw [hanswered.1] at acked
      cases acked
  | some data =>
      rcases hanswered.2 with ⟨hkind, -⟩ | ⟨-, hrejected⟩
      · exact ⟨data, rfl, hkind⟩
      · rw [agreed] at hrejected
        cases hrejected

/-- A step of the thread of `sendFile`. -/
private theorem gate_main {strategy : Strategy} {w' : Endpoint}
    (inv : Gate P (SetUp.ofFile fileName contents pin disk) first w)
    (taken : MainStep P strategy w w.main w') :
    w'.fault = .none ∧ (∀ task ∈ w'.tasks, ∃ job pc, task = .sendChunk job pc) ∧
      (w'.main.admitted = true ∨ w'.jobs ≠ [] →
        ∃ ack, first = some ack ∧ messageKind ack = some .handshakeAck) := by
  have hmain := inv.sender.main
  have hgate := inv.gate
  generalize w.main = pc at hmain hgate taken
  have hstays (still : pc.admitted = false) {v : Endpoint} (out : v.main.admitted = false)
      (same : v.jobs = w.jobs) (h : v.main.admitted = true ∨ v.jobs ≠ []) :
      ∃ ack, first = some ack ∧ messageKind ack = some .handshakeAck := by
    rw [out, same] at h
    exact hgate (.inr (h.resolve_left (by rintro ⟨⟩)))
  cases taken with
  | keyed | announced | acked _ | rejected _ =>
      exact ⟨inv.live, inv.own, hstays rfl rfl rfl⟩
  | accepted agreed =>
      exact ⟨inv.live, inv.own, fun _ => inv.acknowledged hmain.2.2.2 agreed⟩
  | dangling outside =>
      obtain ⟨rfl, -, -, -⟩ := hmain
      rw [inv.sender.fileMapper, read_ofFile] at outside
      cases outside
  | sliced _ | skipped _ | drained | finished =>
      exact ⟨inv.live, inv.own, fun _ => hgate (.inl rfl)⟩
  | submitted _ =>
      exact ⟨inv.live, Pool.forall_submit inv.own ⟨_, _, rfl⟩, fun _ => hgate (.inl rfl)⟩
  | polled _ =>
      rw [reportProgress_eq]
      exact ⟨inv.live, inv.own, fun _ => hgate (.inl rfl)⟩
  | returned done =>
      rcases done with rfl | ⟨rfl, -⟩
      · exact ⟨inv.live, inv.own, fun _ => hgate (.inl rfl)⟩
      · exact hmain.elim

theorem gate_step {event : Event} {w' : Endpoint} (nonempty : contents ≠ [])
    (inv : Gate P (SetUp.ofFile fileName contents pin disk) first w)
    (answering : event.IsAnswering) (taken : step P event w = some w') :
    Gate P (SetUp.ofFile fileName contents pin disk)
      (first.or (event.delivered?.filter decides)) w' := by
  have hstep := (step_cases taken).2
  have hsender := sender_step inv.sender (inv.noZeroPin event) (fun _ _ => trivial)
    (read_ofFile _ _ _ _) hstep
  have hanswered := answered_step inv.answered answering taken
  have hgate (same : w'.main = w.main ∧ w'.jobs = w.jobs)
      (h : w'.main.admitted = true ∨ w'.jobs ≠ []) :
      ∃ ack, first.or (event.delivered?.filter decides) = some ack ∧
        messageKind ack = some .handshakeAck := by
    rw [same.1, same.2] at h
    obtain ⟨ack, rfl, hkind⟩ := inv.gate h
    exact ⟨ack, rfl, hkind⟩
  cases hstep with
  | @deliver data _ _ _ =>
      have hsame := main_eq_of_step (step_cases taken).2 rfl
      obtain ⟨-, rfl⟩ := deliver_of_step taken
      obtain ⟨htasks, hfault⟩ := handleRecv_of_answer (answering data rfl) w
      refine ⟨hsender, hfault.trans inv.live, ?_, hanswered, hgate hsame⟩
      rw [htasks]
      exact inv.own
  | network => exact ⟨hsender, inv.live, inv.own, hanswered, hgate ⟨rfl, rfl⟩⟩
  | handshake found _ | recvChunk found _ =>
      obtain ⟨job, pc, htask⟩ := inv.own _ (List.mem_of_getElem? found)
      cases htask
  | @sendChunk index ok job pc next v found taken' =>
      have hframe := senderFrame_of_sendStep taken'
      have hjob : job ∈ w.jobs := List.mem_filterMap.mpr ⟨_, List.mem_of_getElem? found, rfl⟩
      refine ⟨hsender, ?_, ?_, hanswered, hgate (main_eq_of_step (step_cases taken).2 rfl)⟩
      · cases taken' with
        | dangling outside => exact (read_of_job nonempty inv.sender hjob outside).elim
        | _ => exact inv.live
      · simp only [hframe.tasks]
        exact Pool.forall_set inv.own index ⟨job, next, rfl⟩
  | main taken' =>
      obtain ⟨hlive, hown, hadmitted⟩ := gate_main inv taken'
      refine ⟨hsender, hlive, hown, hanswered, fun h => ?_⟩
      obtain ⟨ack, rfl, hkind⟩ := hadmitted h
      exact ⟨ack, rfl, hkind⟩

theorem gate_run {onProgress : Bool} {start : Endpoint} {events : List Event}
    (opened : sendFile fileName contents pin onProgress disk = some start)
    (run : (machine P start).RunUnder (fun _ event => event.IsAnswering) events w) :
    Gate P (SetUp.ofFile fileName contents pin disk) (firstAnswer events) w := by
  have hsender : Sender P (SetUp.ofFile fileName contents pin disk) (fun _ => True) start :=
    sender_run opened (fun _ _ (h : NoZeroPin _ _) => h) (fun _ _ _ _ _ => trivial) .start
  rw [sendFile] at opened
  split at opened
  · cases opened
  · rename_i hnonempty
    cases opened
    induction run with
    | start =>
        refine ⟨hsender, rfl, by rintro _ ⟨⟩, ⟨rfl, rfl, rfl⟩, ?_⟩
        rintro (hadmitted | hjobs)
        · exact (Bool.false_ne_true hadmitted).elim
        · exact (hjobs rfl).elim
    | snoc _ answering taken ih =>
        rw [firstAnswer_concat]
        exact gate_step hnonempty ih answering taken

end Gate

/-- Once an answer is published, the bits stay as they are, whatever arrives. -/
theorem fixed_of_step {event : Event} {w w' : Endpoint} (taken : Step P w event w')
    (acked : w.handshakeAcked = true) :
    w'.handshakeAcked = true ∧ w'.resumeBitfield = w.resumeBitfield := by
  cases event with
  | deliver data =>
      cases taken with
      | deliver _ received =>
          cases received with
          | acked _ first _ =>
              rw [acked] at first
              cases first
          | _ => exact ⟨acked, rfl⟩
  | network =>
      cases taken
      exact ⟨rfl, rfl⟩
  | task _ _ | main _ _ =>
      have hframe := answerFrame_of_step taken rfl (by rintro ⟨⟩)
      exact ⟨hframe.acked.trans acked, hframe.resumeBitfield⟩

/-- In the loop over the chunks and behind it, the chunk tasks are those of the chunks that
the bits do not have, each of them once. -/
def Slicing (contents : List UInt8) (bits : List Bool) (w : Endpoint) : Prop :=
  match w.main with
  | .slice _ => w.jobs = []
  | .submit _ strategy _ rest =>
    ∃ bound ≤ (SourceFile.mk contents strategy).chunkCount,
      rest = (Chunker.slice contents Chunker.kDefaultChunkSize).drop bound ∧
        w.jobs = missingJobs ⟨contents, strategy⟩ bits bound
  | .drain _ | .collect | .returned =>
    ∃ strategy, w.jobs =
      missingJobs ⟨contents, strategy⟩ bits (SourceFile.mk contents strategy).chunkCount
  | _ => False

/-- A sender that has come to the loop over the chunks, with the bits it found there. -/
structure Looping (P : Platform) (setUp : SetUp) (ack : List UInt8) (bits : List Bool)
    (w : Endpoint) : Prop where
  gate : Gate P setUp (some ack) w
  acked : w.handshakeAcked = true
  resumeBitfield : w.resumeBitfield = bits
  main : w.main.admitted = true ∨ w.main = .returned ∧ ∃ strategy,
    w.jobs = SendJob.ofChunks bits setUp.args.fileView strategy setUp.chunks

theorem looping_step {fileName contents : List UInt8} {pin : UInt32} {disk : List Path}
    {ack : List UInt8} {bits : List Bool} {event : Event} {w w' : Endpoint}
    (nonempty : contents ≠ [])
    (inv : Looping P (SetUp.ofFile fileName contents pin disk) ack bits w)
    (answering : event.IsAnswering) (taken : step P event w = some w') :
    Looping P (SetUp.ofFile fileName contents pin disk) ack bits w' := by
  have hstep := (step_cases taken).2
  have hgate := gate_step nonempty inv.gate answering taken
  rw [Option.some_or] at hgate
  obtain ⟨hacked, hbits⟩ := fixed_of_step hstep inv.acked
  refine ⟨hgate, hacked, hbits.trans inv.resumeBitfield, ?_⟩
  cases event with
  | deliver _ | network | task _ _ =>
      obtain ⟨hmain, hjobs⟩ := main_eq_of_step hstep rfl
      rw [hmain, hjobs]
      exact inv.main
  | main strategy waitSnd =>
      have hmain := inv.main
      have hsender := inv.gate.sender.main
      cases hstep with
      | main taken' =>
          generalize hpc : w.main = pc at hmain hsender taken'
          cases taken' with
          | keyed | announced | acked _ | rejected _ | accepted _ =>
              rcases hmain with hadmitted | ⟨hreturned, -⟩
              · cases hadmitted
              · cases hreturned
          | sliced _ | skipped _ | submitted _ | drained | finished => exact .inl rfl
          | dangling _ => exact .inl (congrArg MainPc.admitted hpc)
          | polled _ =>
              rw [reportProgress_eq]
              exact .inl (congrArg MainPc.admitted hpc)
          | returned done =>
              rcases done with rfl | ⟨rfl, -⟩
              · obtain ⟨-, -, strategy', -, hjobs⟩ := hsender
                rw [inv.resumeBitfield] at hjobs
                exact .inr ⟨rfl, strategy', hjobs⟩
              · exact hsender.elim

/-- What a sender in the loop or behind it has submitted. -/
theorem slicing_of_looping {fileName contents : List UInt8} {pin : UInt32} {disk : List Path}
    {ack : List UInt8} {bits : List Bool} {w : Endpoint} (nonempty : contents ≠ [])
    (inv : Looping P (SetUp.ofFile fileName contents pin disk) ack bits w) :
    Slicing contents bits w := by
  have hcount (strategy : Strategy) : Chunker.slice contents Chunker.kDefaultChunkSize =
      (List.range (SourceFile.mk contents strategy).chunkCount).map
        (Chunker.chunkAt contents Chunker.kDefaultChunkSize) := if_neg nonempty
  have hall {strategy : Strategy}
      (jobs : w.jobs = SendJob.ofChunks w.resumeBitfield ⟨2, 0, contents.length⟩ strategy
        (Chunker.slice contents Chunker.kDefaultChunkSize)) :
      w.jobs = missingJobs ⟨contents, strategy⟩ bits
        (SourceFile.mk contents strategy).chunkCount := by
    rw [hcount strategy, inv.resumeBitfield] at jobs
    exact jobs.trans (ofChunks_eq_missingJobs ⟨contents, strategy⟩ _ (Nat.le_refl _))
  have hmain := inv.main
  have hsender := inv.gate.sender.main
  rw [Slicing]
  generalize w.main = pc at hmain hsender
  cases pc with
  | deriveKey _ | sendHandshake _ | waitAck _ | checkRejected _ | receiving =>
      rcases hmain with hadmitted | ⟨hreturned, -⟩
      · cases hadmitted
      · cases hreturned
  | slice args => exact hsender.2.2.1
  | submit args strategy total rest =>
      obtain ⟨-, -, -, -, done, hdone, hjobs⟩ := hsender
      have hchunks : done ++ rest = (List.range (SourceFile.mk contents strategy).chunkCount).map
          (Chunker.chunkAt contents Chunker.kDefaultChunkSize) := hdone.trans (hcount strategy)
      have hbound : done.length ≤ (SourceFile.mk contents strategy).chunkCount := by
        have hlength := congrArg List.length hchunks
        rw [List.length_append, List.length_map, List.length_range] at hlength
        omega
      have hfront : done = (List.range done.length).map
          (Chunker.chunkAt contents Chunker.kDefaultChunkSize) := by
        have htake := congrArg (List.take done.length) hchunks
        rw [List.take_left, ← List.map_take, List.take_range, Nat.min_eq_left hbound] at htake
        exact htake
      refine ⟨done.length, hbound, ?_, ?_⟩
      · rw [hcount strategy, ← hchunks, List.drop_left]
      · rw [inv.resumeBitfield] at hjobs
        rw [hjobs, ← ofChunks_eq_missingJobs ⟨contents, strategy⟩ bits hbound, ← hfront]
        rfl
  | drain total | collect =>
      obtain ⟨-, -, strategy, -, hjobs⟩ := hsender
      exact ⟨strategy, hall hjobs⟩
  | returned =>
      obtain ⟨strategy, hjobs⟩ := (hmain.resolve_left (by rintro ⟨⟩)).2
      rw [← inv.resumeBitfield] at hjobs
      exact ⟨strategy, hall hjobs⟩

/-- A sender with answers in any order and number, however its threads interleave. -/
structure Gated (P : Platform) (contents : List UInt8) (events : List Event) (w : Endpoint) :
    Prop where
  live : w.fault = .none
  /-- No chunk is submitted unless an acknowledgement came before any rejection. -/
  gate : w.jobs ≠ [] → ∃ ack, firstAnswer events = some ack ∧ acknowledges ack = true
  /-- The bits do not change once `handshake_acked_` is set. -/
  fixed : w.handshakeAcked = true → ∀ later v,
    (machine P w).RunUnder (fun _ event => event.IsAnswering) later v →
      v.handshakeAcked = true ∧ v.resumeBitfield = w.resumeBitfield
  /-- A loop over the chunks submits those whose bits in that acknowledgement are clear. -/
  slicing : ∀ args, w.main = .slice args → ∃ ack bits, firstAnswer events = some ack ∧
    acknowledges ack = true ∧ ackBits ack = some bits ∧ ∀ later v,
      (machine P w).RunUnder (fun _ event => event.IsAnswering) later v → Slicing contents bits v

theorem gated_of_answers {fileName contents : List UInt8} {pin : UInt32} {onProgress : Bool}
    {disk : List Path} {start w : Endpoint} {events : List Event}
    (opened : sendFile fileName contents pin onProgress disk = some start)
    (run : (machine P start).RunUnder (fun _ event => event.IsAnswering) events w) :
    Gated P contents events w := by
  have inv := gate_run opened run
  have hcounts {ack : List UInt8} (hfirst : firstAnswer events = some ack)
      (hkind : messageKind ack = some .handshakeAck) : acknowledges ack = true := by
    have hdecides := List.find?_some hfirst
    simpa [decides, hkind] using hdecides
  have hnonempty := ne_nil_of_sendFile opened
  refine ⟨inv.live, ?_, ?_, ?_⟩
  · intro hjobs
    obtain ⟨ack, hfirst, hkind⟩ := inv.gate (.inr hjobs)
    exact ⟨ack, hfirst, hcounts hfirst hkind⟩
  · intro hacked later v hlater
    apply hlater.invariant
      (motive := fun v => v.handshakeAcked = true ∧ v.resumeBitfield = w.resumeBitfield)
    · exact ⟨hacked, rfl⟩
    · intro u event v hu _ taken
      obtain ⟨hv, hbits⟩ := fixed_of_step (step_cases taken).2 hu.1
      exact ⟨hv, hbits.trans hu.2⟩
  · intro args hslice
    obtain ⟨ack, hfirst, hkind⟩ := inv.gate (.inl (by rw [hslice]; rfl))
    have hgate := inv
    rw [hfirst] at hgate
    have hbits : ackBits ack = some w.resumeBitfield := by
      rcases hgate.answered.2 with ⟨-, hbits⟩ | ⟨hreject, -⟩
      · exact hbits
      · rw [hkind] at hreject
        cases hreject
    have hsender := inv.sender.main
    rw [hslice] at hsender
    refine ⟨ack, w.resumeBitfield, hfirst, hcounts hfirst hkind, hbits, ?_⟩
    intro later v hlater
    apply slicing_of_looping hnonempty
    apply hlater.invariant
      (motive := Looping P (SetUp.ofFile fileName contents pin disk) ack w.resumeBitfield)
    · exact ⟨hgate, hsender.2.2.2, rfl, .inl (by rw [machine, hslice]; rfl)⟩
    · intro u event v hu answering taken
      exact looping_step hnonempty hu answering taken

/-- A whole transfer, in the middle of which a rejection comes too late. -/
def lateRejection : List Event :=
  KnownAnswers.submission ++ [.deliver handshakeRejectMessage, .network] ++
    KnownAnswers.steps 0 5 ++ KnownAnswers.mainSteps 3

theorem gated_of_lateRejection :
    Gated KnownAnswers.platform [65] lateRejection
      ((machine KnownAnswers.platform (KnownAnswers.sender 65)).reached lateRejection) :=
  gated_of_answers (show sendFile [97] [65] 123456 false [] = _ from rfl)
    (Machine.runUnder_reached (by decide +kernel))

end Endpoint

end Sxaint.Net
