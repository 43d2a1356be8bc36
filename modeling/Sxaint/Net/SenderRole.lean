/-
# Runs of a sender

What every run of a session started by `sendFile` keeps, as long as no handshake with
the pin 0 is looked at: the view of the file, the key and the metrics are those that
`sendFile` set up, and the chunk tasks are those of the chunks it cut. There is one
dispatcher for both roles, and a sender's expected pin keeps its initial value 0, so
a handshake with that pin is accepted and initialises the sender as a receiver.
-/

import Sxaint.Machine.Pool
import Sxaint.Net.KnownAnswers
import Sxaint.Net.Steps

namespace Sxaint.Net

open Sxaint.Core Transition

/-- The strategy that an event brings in. -/
def Event.strategy? : Event → Option Strategy
  | .main strategy _ => some strategy
  | _ => none

/-- The job of a chunk task of the sender. -/
def Task.job? : Task → Option SendJob
  | .sendChunk job _ => some job
  | _ => none

/-- A chunk task that has called `Crypto::encrypt` and not failed. -/
def SendPc.pastEncrypt : SendPc → Bool
  | .send _ => true
  | .count => true
  | .addBytes => true
  | .sent => true
  | _ => false

/-- The jobs of the chunks that the acknowledged bits do not skip. -/
def SendJob.ofChunks (bits : List Bool) (fileView : Span) (strategy : Strategy)
    (chunks : List Chunk) : List SendJob :=
  (chunks.filter fun chunk => !bits.getD chunk.id.toNat false).map
    (SendJob.ofChunk fileView strategy)

theorem SendJob.ofChunks_concat_of_skipped {bits : List Bool} {chunk : Chunk}
    (known : bits.getD chunk.id.toNat false = true) (fileView : Span) (strategy : Strategy)
    (done : List Chunk) :
    ofChunks bits fileView strategy (done ++ [chunk]) = ofChunks bits fileView strategy done := by
  rw [ofChunks, List.filter_append, List.filter_cons_of_neg (by rw [known]; decide),
    List.filter_nil, List.append_nil, ofChunks]

theorem SendJob.ofChunks_concat_of_sent {bits : List Bool} {chunk : Chunk}
    (unknown : bits.getD chunk.id.toNat false = false) (fileView : Span) (strategy : Strategy)
    (done : List Chunk) :
    ofChunks bits fileView strategy (done ++ [chunk]) =
      ofChunks bits fileView strategy done ++ [ofChunk fileView strategy chunk] := by
  rw [ofChunks, List.filter_append, List.filter_cons_of_pos (by rw [unknown]; rfl),
    List.filter_nil, List.map_append, ofChunks, List.map_singleton]

namespace Endpoint

variable {P : Platform}

/-- The jobs of the chunk tasks, in the order of submission. -/
def jobs (w : Endpoint) : List SendJob :=
  w.tasks.filterMap Task.job?

/-- No handshake with the pin 0 is looked at. -/
def NoZeroPin (w : Endpoint) (event : Event) : Prop :=
  ∀ hs ∈ w.entering event, hs.pin ≠ 0

instance (w : Endpoint) (event : Event) : Decidable (NoZeroPin w event) :=
  inferInstanceAs (Decidable (∀ hs ∈ w.entering event, _))

/-- What a sender has set up, apart from its tasks. -/
structure SetUp where
  args : SendArgs
  view : Mapping
  object : ℕ
  disk : List Path

/-- The key of the transfer. -/
def SetUp.key (P : Platform) (setUp : SetUp) : List UInt8 :=
  Crypto.deriveKey P.ssl setUp.args.pin

/-- The chunks of the file. -/
def SetUp.chunks (setUp : SetUp) : List Chunk :=
  Chunker.slice setUp.view.bytes Chunker.kDefaultChunkSize

/-- What the encryption of a job's chunk is called with. -/
def SetUp.call? (P : Platform) (setUp : SetUp) (job : SendJob) : Option EncryptCall :=
  (job.plaintext P.codecs setUp.view).map fun bytes =>
    ⟨setUp.key P, Crypto.iv job.chunkId, bytes⟩

/-- What holds of a task of a sender. -/
def SenderTask (P : Platform) (setUp : SetUp) (calls : List EncryptCall) : Task → Prop
  | .handshake _ pc => pc = .enter ∨ pc = .answered
  | .recvChunk _ _ pc => pc = .enter ∨ pc = .dropped
  | .sendChunk job (.encrypt bytes) => job.plaintext P.codecs setUp.view = some bytes
  | .sendChunk job pc =>
    pc.pastEncrypt = true → ∃ call ∈ calls, setUp.call? P job = some call

/-- What holds where the thread of `sendFile` is, with a strategy allowed by `chosen`. -/
def SenderMain (P : Platform) (setUp : SetUp) (chosen : Strategy → Prop) (w : Endpoint) :
    MainPc → Prop
  | .deriveKey args => args = setUp.args ∧ w.aesKey = [] ∧ w.jobs = []
  | .sendHandshake args => args = setUp.args ∧ w.aesKey = setUp.key P ∧ w.jobs = []
  | .waitAck args => args = setUp.args ∧ w.aesKey = setUp.key P ∧ w.jobs = []
  | .checkRejected args =>
    args = setUp.args ∧ w.aesKey = setUp.key P ∧ w.jobs = [] ∧ w.handshakeAcked = true
  | .slice args =>
    args = setUp.args ∧ w.aesKey = setUp.key P ∧ w.jobs = [] ∧ w.handshakeAcked = true
  | .submit args strategy _ rest =>
    args = setUp.args ∧ w.aesKey = setUp.key P ∧ w.handshakeAcked = true ∧ chosen strategy ∧
      ∃ done, done ++ rest = setUp.chunks ∧
        w.jobs = SendJob.ofChunks w.resumeBitfield setUp.args.fileView strategy done
  | .drain _ =>
    w.aesKey = setUp.key P ∧ w.handshakeAcked = true ∧
      ∃ strategy, chosen strategy ∧
        w.jobs = SendJob.ofChunks w.resumeBitfield setUp.args.fileView strategy setUp.chunks
  | .collect =>
    w.aesKey = setUp.key P ∧ w.handshakeAcked = true ∧
      ∃ strategy, chosen strategy ∧
        w.jobs = SendJob.ofChunks w.resumeBitfield setUp.args.fileView strategy setUp.chunks
  | .receiving => False
  | .returned =>
    w.aesKey = setUp.key P ∧ w.handshakeAcked = true ∧
      (w.handshakeRejected = true ∧ w.jobs = [] ∨
        ∃ strategy, chosen strategy ∧
          w.jobs = SendJob.ofChunks w.resumeBitfield setUp.args.fileView strategy setUp.chunks)

/-- The invariant of runs of a sender in which no handshake with the pin 0 is looked
at. -/
structure Sender (P : Platform) (setUp : SetUp) (chosen : Strategy → Prop) (w : Endpoint) :
    Prop where
  expectedPin : w.expectedPin = 0
  expectedChunks : w.expectedChunks = 0
  writeView : w.writeView.size = 0
  fileMapper : w.fileMapper = some setUp.view
  object : w.metrics.map (·.object) = some setUp.object
  disk : w.disk = setUp.disk
  main : SenderMain P setUp chosen w w.main
  tasks : ∀ task ∈ w.tasks, SenderTask P setUp w.encryptCalls task
  calls : ∀ call ∈ w.encryptCalls, ∃ job ∈ w.jobs, setUp.call? P job = some call

/-- More calls keep what holds of a task. -/
theorem senderTask_mono {setUp : SetUp} {calls more : List EncryptCall} {task : Task}
    (good : SenderTask P setUp calls task) (grown : ∀ call ∈ calls, call ∈ more) :
    SenderTask P setUp more task := by
  cases task with
  | handshake _ _ | recvChunk _ _ _ => exact good
  | sendChunk job pc =>
      cases pc with
      | encrypt bytes => exact good
      | compress | send _ | count | addBytes | sent | failed =>
          exact fun hpast => (good hpast).imp fun call h => ⟨grown call h.1, h.2⟩

/-- What the thread of `sendFile` relies on is a matter of the key, of the jobs and of
the answer. -/
theorem senderMain_of_same {setUp : SetUp} {chosen : Strategy → Prop} {w v : Endpoint}
    {pc : MainPc} (good : SenderMain P setUp chosen w pc) (aesKey : v.aesKey = w.aesKey)
    (jobs : v.jobs = w.jobs)
    (acked : w.handshakeAcked = true →
      v.handshakeAcked = true ∧ v.resumeBitfield = w.resumeBitfield)
    (rejected : w.handshakeRejected = true → v.handshakeRejected = true) :
    SenderMain P setUp chosen v pc := by
  have hjobs (h : w.handshakeAcked = true) (strategy : Strategy) (chunks : List Chunk) :
      SendJob.ofChunks v.resumeBitfield setUp.args.fileView strategy chunks =
        SendJob.ofChunks w.resumeBitfield setUp.args.fileView strategy chunks := by
    rw [(acked h).2]
  cases pc with
  | deriveKey args | sendHandshake args | waitAck args =>
      exact ⟨good.1, aesKey.trans good.2.1, jobs.trans good.2.2⟩
  | checkRejected args | slice args =>
      exact ⟨good.1, aesKey.trans good.2.1, jobs.trans good.2.2.1, (acked good.2.2.2).1⟩
  | submit args strategy total rest =>
      obtain ⟨hargs, hkey, hacked, hchosen, done, hdone, hw⟩ := good
      exact ⟨hargs, aesKey.trans hkey, (acked hacked).1, hchosen, done, hdone,
        jobs.trans (hw.trans (hjobs hacked _ _).symm)⟩
  | drain _ | collect =>
      obtain ⟨hkey, hacked, strategy, hchosen, hw⟩ := good
      exact ⟨aesKey.trans hkey, (acked hacked).1, strategy, hchosen,
        jobs.trans (hw.trans (hjobs hacked _ _).symm)⟩
  | receiving => exact good
  | returned =>
      obtain ⟨hkey, hacked, hend⟩ := good
      refine ⟨aesKey.trans hkey, (acked hacked).1, hend.imp (.imp rejected jobs.trans) ?_⟩
      rintro ⟨strategy, hchosen, hw⟩
      exact ⟨strategy, hchosen, jobs.trans (hw.trans (hjobs hacked _ _).symm)⟩

/-- A sender has its key wherever it has a chunk task. -/
theorem aesKey_of_job {setUp : SetUp} {chosen : Strategy → Prop} {w : Endpoint} {job : SendJob}
    (inv : Sender P setUp chosen w) (mem : job ∈ w.jobs) : w.aesKey = setUp.key P := by
  have hmain := inv.main
  cases hpc : w.main with
  | deriveKey args =>
      rw [hpc] at hmain
      rw [hmain.2.2] at mem
      cases mem
  | sendHandshake args | waitAck args | checkRejected args | slice args
  | submit args _ _ _ =>
      rw [hpc] at hmain
      exact hmain.2.1
  | drain _ | collect | returned =>
      rw [hpc] at hmain
      exact hmain.1
  | receiving =>
      rw [hpc] at hmain
      exact hmain.elim

/-- The members that the tasks of a sender leave alone. Of the metrics only the count
changes. -/
structure SenderFrame (w v : Endpoint) : Prop where
  tasks : v.tasks = w.tasks
  main : v.main = w.main
  expectedPin : v.expectedPin = w.expectedPin
  expectedChunks : v.expectedChunks = w.expectedChunks
  writeView : v.writeView = w.writeView
  fileMapper : v.fileMapper = w.fileMapper
  object : v.metrics.map (·.object) = w.metrics.map (·.object)
  disk : v.disk = w.disk
  aesKey : v.aesKey = w.aesKey
  acked : v.handshakeAcked = w.handshakeAcked
  resumeBitfield : v.resumeBitfield = w.resumeBitfield
  rejected : v.handshakeRejected = w.handshakeRejected

theorem senderFrame_of_sendStep {job : SendJob} {pc next : SendPc} {w v : Endpoint}
    (taken : SendStep P job w pc next v) : SenderFrame w v := by
  cases taken with
  | metered => constructor <;> first | rfl | (cases w.metrics <;> rfl)
  | _ => constructor <;> rfl

/-- A step of a task of a sender. -/
private theorem sender_task {setUp : SetUp} {chosen : Strategy → Prop} {w v : Endpoint}
    {index : ℕ} {old new : Task} (inv : Sender P setUp chosen w)
    (found : w.tasks[index]? = some old) (frame : SenderFrame w v) (job : new.job? = old.job?)
    (grown : ∀ call ∈ w.encryptCalls, call ∈ v.encryptCalls)
    (good : SenderTask P setUp v.encryptCalls new)
    (calls : ∀ call ∈ v.encryptCalls,
      call ∈ w.encryptCalls ∨ ∃ job ∈ w.jobs, setUp.call? P job = some call) :
    Sender P setUp chosen { v with tasks := v.tasks.set index new } := by
  have hjobs : Endpoint.jobs { v with tasks := v.tasks.set index new } = w.jobs := by
    simp only [jobs, frame.tasks]
    exact Pool.filterMap_set_eq found Task.job? job
  refine ⟨frame.expectedPin.trans inv.expectedPin,
    frame.expectedChunks.trans inv.expectedChunks, ?_, frame.fileMapper.trans inv.fileMapper,
    frame.object.trans inv.object, frame.disk.trans inv.disk, ?_, ?_, fun call hmem => ?_⟩
  · simpa only [frame.writeView] using inv.writeView
  · simp only [frame.main]
    exact senderMain_of_same inv.main frame.aesKey hjobs
      (fun h => ⟨frame.acked.trans h, frame.resumeBitfield⟩) fun h => frame.rejected.trans h
  · simp only [frame.tasks]
    exact Pool.forall_set (fun task hmem => senderTask_mono (inv.tasks task hmem) grown) index good
  · rw [hjobs]
    exact (calls call hmem).elim (inv.calls call) id

/-- A message leaves a task behind that is no chunk task of a sender. -/
private theorem sender_submit {setUp : SetUp} {chosen : Strategy → Prop} {w : Endpoint}
    {new : Task} (inv : Sender P setUp chosen w) (job : new.job? = none)
    (good : SenderTask P setUp w.encryptCalls new) : Sender P setUp chosen (w.submit new) := by
  have hjobs : (w.submit new).jobs = w.jobs := by
    simp [jobs, submit, job]
  refine { inv with main := ?_, tasks := ?_, calls := ?_ }
  · exact senderMain_of_same inv.main rfl hjobs (fun h => ⟨h, rfl⟩) id
  · exact Pool.forall_submit inv.tasks good
  · rw [hjobs]
    exact inv.calls

/-- The step of the thread of `sendFile`. -/
private theorem sender_main {setUp : SetUp} {chosen : Strategy → Prop} {strategy : Strategy}
    {w w' : Endpoint} (inv : Sender P setUp chosen w) (allowed : chosen strategy)
    (view : setUp.args.fileView.read (some setUp.view) = some setUp.view.bytes)
    (taken : MainStep P strategy w w.main w') : Sender P setUp chosen w' := by
  have hmain := inv.main
  generalize w.main = pc at hmain taken
  cases taken with
  | keyed =>
      obtain ⟨rfl, -, hjobs⟩ := hmain
      exact { inv with main := ⟨rfl, rfl, hjobs⟩ }
  | announced =>
      obtain ⟨rfl, hkey, hjobs⟩ := hmain
      exact { inv with main := ⟨rfl, hkey, hjobs⟩ }
  | acked published =>
      obtain ⟨rfl, hkey, hjobs⟩ := hmain
      exact { inv with main := ⟨rfl, hkey, hjobs, published⟩ }
  | rejected refused =>
      obtain ⟨rfl, hkey, hjobs, hacked⟩ := hmain
      exact { inv with main := ⟨hkey, hacked, .inl ⟨refused, hjobs⟩⟩ }
  | accepted agreed =>
      obtain ⟨rfl, hkey, hjobs, hacked⟩ := hmain
      exact { inv with main := ⟨rfl, hkey, hjobs, hacked⟩ }
  | dangling outside =>
      obtain ⟨rfl, -, -, -⟩ := hmain
      rw [inv.fileMapper, view] at outside
      cases outside
  | @sliced args bytes live =>
      obtain ⟨rfl, hkey, hjobs, hacked⟩ := hmain
      rw [inv.fileMapper, view] at live
      obtain rfl := Option.some.inj live
      exact { inv with main := ⟨rfl, hkey, hacked, allowed, [], rfl, hjobs⟩ }
  | @skipped args chosen' total chunk rest known =>
      obtain ⟨rfl, hkey, hacked, hchosen, done, hdone, hjobs⟩ := hmain
      have hsame := SendJob.ofChunks_concat_of_skipped known setUp.args.fileView chosen' done
      exact { inv with
        main := ⟨rfl, hkey, hacked, hchosen, done ++ [chunk], by simpa, hjobs.trans hsame.symm⟩ }
  | @submitted args chosen' total chunk rest unknown =>
      obtain ⟨rfl, hkey, hacked, hchosen, done, hdone, hjobs⟩ := hmain
      have hgrown : Endpoint.jobs (w.submit (.sendChunk
          (SendJob.ofChunk setUp.args.fileView chosen' chunk) .compress)) =
          w.jobs ++ [SendJob.ofChunk setUp.args.fileView chosen' chunk] := by
        simp [jobs, submit, Task.job?]
      have hsame := SendJob.ofChunks_concat_of_sent unknown setUp.args.fileView chosen' done
      have hcalls (call : EncryptCall) (hmem : call ∈ w.encryptCalls) :
          ∃ job ∈ Endpoint.jobs (w.submit (.sendChunk
            (SendJob.ofChunk setUp.args.fileView chosen' chunk) .compress)),
            setUp.call? P job = some call := by
        obtain ⟨job, hjob, hcall⟩ := inv.calls call hmem
        exact ⟨job, hgrown ▸ List.mem_append_left _ hjob, hcall⟩
      have htasks := Pool.forall_submit inv.tasks (show SenderTask P setUp w.encryptCalls
        (.sendChunk (SendJob.ofChunk setUp.args.fileView chosen' chunk) .compress) from
          fun h => nomatch h)
      exact { inv with
        main := ⟨rfl, hkey, hacked, hchosen, done ++ [chunk], by simpa,
          hgrown.trans (hjobs ▸ hsame.symm)⟩
        tasks := htasks
        calls := hcalls }
  | @drained args chosen' total =>
      obtain ⟨rfl, hkey, hacked, hchosen, done, hdone, hjobs⟩ := hmain
      rw [List.append_nil] at hdone
      subst hdone
      exact { inv with main := ⟨hkey, hacked, chosen', hchosen, hjobs⟩ }
  | polled more =>
      rw [reportProgress_eq]
      exact { inv with }
  | finished => exact { inv with main := hmain }
  | returned done =>
      rcases done with rfl | ⟨rfl, -⟩
      · exact { inv with main := ⟨hmain.1, hmain.2.1, .inr hmain.2.2⟩ }
      · exact hmain.elim

/-- A step of a sender that looks at no handshake with the pin 0. -/
theorem sender_step {setUp : SetUp} {chosen : Strategy → Prop} {event : Event}
    {w w' : Endpoint} (inv : Sender P setUp chosen w) (nonzero : NoZeroPin w event)
    (allowed : ∀ strategy ∈ event.strategy?, chosen strategy)
    (view : setUp.args.fileView.read (some setUp.view) = some setUp.view.bytes)
    (taken : Step P w event w') : Sender P setUp chosen w' := by
  cases taken with
  | deliver idle received =>
      cases received with
      | handshake carried => exact sender_submit inv rfl (.inl rfl)
      | chunk other carried => exact sender_submit inv rfl (.inl rfl)
      | ignored _ => exact inv
      | ackFault _ _ =>
          exact { inv with main := senderMain_of_same inv.main rfl rfl (fun h => ⟨h, rfl⟩) id }
      | acked _ first _ =>
          refine { inv with main := senderMain_of_same inv.main rfl rfl (fun h => ?_) id }
          rw [first] at h
          cases h
      | rejected _ =>
          exact { inv with
            main := senderMain_of_same inv.main rfl rfl (fun h => ⟨h, rfl⟩) fun _ => rfl }
  | network =>
      exact { inv with main := senderMain_of_same inv.main rfl rfl (fun _ => ⟨rfl, rfl⟩) id }
  | @handshake index ok hs pc next v found taken =>
      have hpc : pc = .enter ∨ pc = .answered := inv.tasks _ (List.mem_of_getElem? found)
      have hanswer {v : Endpoint} {next : HandshakePc} (frame : SenderFrame w v)
          (calls : v.encryptCalls = w.encryptCalls) (good : next = .enter ∨ next = .answered) :
          Sender P setUp chosen { v with tasks := v.tasks.set index (.handshake hs next) } :=
        sender_task inv found frame rfl (by rw [calls]; exact fun _ h => h) good
          (by rw [calls]; exact fun _ h => .inl h)
      rcases hpc with rfl | rfl
      · cases taken with
        | rejected _ _ => exact hanswer (by constructor <;> rfl) rfl (.inr rfl)
        | resumed latched _ => exact (latched inv.expectedChunks).elim
        | admitted _ right =>
            exact (nonzero hs (mem_entering.mpr found) (right.trans inv.expectedPin)).elim
        | packFault packing _ =>
            rcases packing with ⟨-, latched⟩ | h
            · exact (latched inv.expectedChunks).elim
            · cases h
        | searched searching => rcases searching with h | ⟨_, _, _, _, h⟩ <;> cases h
        | threw throwing => cases throwing
      · exact (taken.false_of_returned nofun rfl).elim
  | @recvChunk index ok header payload pc next v found taken =>
      have hpc : pc = .enter ∨ pc = .dropped := inv.tasks _ (List.mem_of_getElem? found)
      cases taken with
      | dropped reason =>
          exact sender_task inv found (by constructor <;> rfl) rfl (fun _ h => h) (.inr rfl)
            fun _ h => .inl h
      | targeted nonempty _ => exact (nonempty inv.writeView).elim
      | fault reason => rcases hpc with rfl | rfl <;> exact reason.elim
      | _ => rcases hpc with h | h <;> cases h
  | @sendChunk index ok job pc next v found taken =>
      have hframe := senderFrame_of_sendStep taken
      have hgood := inv.tasks _ (List.mem_of_getElem? found)
      have hjob : job ∈ w.jobs :=
        List.mem_filterMap.mpr ⟨_, List.mem_of_getElem? found, rfl⟩
      have hkey := aesKey_of_job inv hjob
      cases taken with
      | dangling _ | failed _ =>
          exact sender_task inv found hframe rfl (fun _ h => h) (fun h => nomatch h)
            fun _ h => .inl h
      | @compressed input bytes live packed =>
          refine sender_task inv found hframe rfl (fun _ h => h) ?_ fun _ h => .inl h
          rw [inv.fileMapper] at live
          rw [SenderTask, SendJob.plaintext, live]
          exact packed
      | @encrypted bytes encrypted closed =>
          have hcall : setUp.call? P job = some ⟨w.aesKey, Crypto.iv job.chunkId, bytes⟩ := by
            rw [SetUp.call?, show job.plaintext P.codecs setUp.view = some bytes from hgood, hkey]
            rfl
          refine sender_task inv found hframe rfl (fun _ h => List.mem_append_left _ h)
            (fun _ => ⟨_, List.mem_append_right _ (List.mem_singleton_self _), hcall⟩)
            fun call hmem => ?_
          rcases List.mem_append.mp hmem with hold | hnew
          · exact .inl hold
          · exact .inr ⟨job, hjob, List.mem_singleton.mp hnew ▸ hcall⟩
      | @unencrypted bytes =>
          have hcall : setUp.call? P job = some ⟨w.aesKey, Crypto.iv job.chunkId, bytes⟩ := by
            rw [SetUp.call?, show job.plaintext P.codecs setUp.view = some bytes from hgood, hkey]
            rfl
          refine sender_task inv found hframe rfl (fun _ h => List.mem_append_left _ h)
            (fun h => nomatch h) fun call hmem => ?_
          rcases List.mem_append.mp hmem with hold | hnew
          · exact .inl hold
          · exact .inr ⟨job, hjob, List.mem_singleton.mp hnew ▸ hcall⟩
      | sent | counted | metered =>
          exact sender_task inv found hframe rfl (fun _ h => h) (fun _ => hgood rfl)
            fun _ h => .inl h
  | main taken => exact sender_main inv (allowed _ rfl) view taken

/-- What `sendFile` sets up before its network thread starts. -/
def SetUp.ofFile (fileName contents : List UInt8) (pin : UInt32) (disk : List Path) : SetUp where
  args :=
    { pin := pin
      fileName := fileName
      fileSize := UInt64.ofNat contents.length
      fileView := ⟨2, 0, contents.length⟩ }
  view := ⟨2, contents⟩
  object := 1
  disk := disk

theorem read_ofFile (fileName contents : List UInt8) (pin : UInt32) (disk : List Path) :
    (SetUp.ofFile fileName contents pin disk).args.fileView.read
        (some (SetUp.ofFile fileName contents pin disk).view) =
      some (SetUp.ofFile fileName contents pin disk).view.bytes := by
  by_cases hempty : contents.length = 0
  · simp [SetUp.ofFile, Span.read, List.eq_nil_of_length_eq_zero hempty]
  · simp [SetUp.ofFile, Span.read, hempty]

/-- Every run of a sender that looks at no handshake with the pin 0 keeps the
invariant. -/
theorem sender_run {fileName contents : List UInt8} {pin : UInt32} {onProgress : Bool}
    {disk : List Path} {start w : Endpoint} {chosen : Strategy → Prop}
    {allowed : Endpoint → Event → Prop} {events : List Event}
    (opened : sendFile fileName contents pin onProgress disk = some start)
    (nonzero : ∀ w event, allowed w event → NoZeroPin w event)
    (strategies : ∀ w event, allowed w event → ∀ strategy ∈ event.strategy?, chosen strategy)
    (run : (machine P start).RunUnder allowed events w) :
    Sender P (SetUp.ofFile fileName contents pin disk) chosen w := by
  refine run.invariant ?_ fun state event next inv ok taken =>
    sender_step inv (nonzero _ _ ok) (strategies _ _ ok) (read_ofFile _ _ _ _)
      (step_cases (show step P event state = some next from taken)).2
  rw [sendFile] at opened
  split at opened
  · cases opened
  · cases opened
    exact ⟨rfl, rfl, rfl, rfl, rfl, rfl, ⟨rfl, rfl, rfl⟩, by simp [machine], by simp [machine]⟩

/-! ## Role separation -/

/-- A sender is as `sendFile` left it at its start, and its key is the one `sendFile`
derives. -/
structure Undisturbed (P : Platform) (pin : UInt32) (start w : Endpoint) : Prop where
  aesKey : w.aesKey =
    match w.main with
    | .deriveKey _ => []
    | _ => Crypto.deriveKey P.ssl pin
  fileMapper : w.fileMapper = start.fileMapper
  object : w.metrics.map (·.object) = start.metrics.map (·.object)
  disk : w.disk = start.disk
  keys : ∀ call ∈ w.encryptCalls, call.key = Crypto.deriveKey P.ssl pin

/-- Whatever messages arrive, and however they interleave with the transfer: as long as
no handshake with the pin 0 is looked at, none of them disturbs a sender. -/
theorem undisturbed_of_nonzero_pins {fileName contents : List UInt8} {pin : UInt32}
    {onProgress : Bool} {disk : List Path} {start w : Endpoint} {events : List Event}
    (opened : sendFile fileName contents pin onProgress disk = some start)
    (run : (machine P start).RunUnder NoZeroPin events w) : Undisturbed P pin start w := by
  have inv : Sender P (SetUp.ofFile fileName contents pin disk) (fun _ => True) w :=
    sender_run opened (fun _ _ h => h) (fun _ _ _ _ _ => trivial) run
  have hinit : Sender P (SetUp.ofFile fileName contents pin disk) (fun _ => True) start :=
    sender_run opened (fun _ _ (h : NoZeroPin _ _) => h) (fun _ _ _ _ _ => trivial) .start
  refine ⟨?_, inv.fileMapper.trans hinit.fileMapper.symm, inv.object.trans hinit.object.symm,
    inv.disk.trans hinit.disk.symm, fun call hmem => ?_⟩
  · have hmain := inv.main
    generalize w.main = pc at hmain
    cases pc with
    | deriveKey args | sendHandshake args | waitAck args | checkRejected args | slice args
    | submit args _ _ _ => exact hmain.2.1
    | drain _ | collect | returned => exact hmain.1
    | receiving => exact hmain.elim
  · obtain ⟨job, -, hcall⟩ := inv.calls call hmem
    obtain ⟨bytes, -, rfl⟩ := Option.map_eq_some_iff.mp hcall
    rfl

/-- A whole transfer is undisturbed. -/
theorem undisturbed_of_sending :
    Undisturbed KnownAnswers.platform 123456 (KnownAnswers.sender 65)
      ((machine KnownAnswers.platform (KnownAnswers.sender 65)).reached KnownAnswers.sending) :=
  undisturbed_of_nonzero_pins (show sendFile [97] [65] 123456 false [] = _ from rfl)
    (Machine.runUnder_reached (by decide +kernel))

/-- A handshake with the pin 0 reaches a sender between the submission of its chunk and
the encryption. -/
def zeroPinEvents : List Event :=
  KnownAnswers.submission ++ .deliver (KnownAnswers.handshakeMessage 0 1 1) ::
    KnownAnswers.steps 1 2 ++ KnownAnswers.steps 0 2

/-- The chunk is encrypted under the key of the pin 0. -/
theorem disturbed_by_zero_pin :
    ∃ w, (machine KnownAnswers.platform (KnownAnswers.sender 65)).Run zeroPinEvents w ∧
      w.encryptCalls.map EncryptCall.key = [KnownAnswers.keyOfZero] ∧
      ¬ Undisturbed KnownAnswers.platform 123456 (KnownAnswers.sender 65) w := by
  refine ⟨_, Machine.run_reached (by decide +kernel), by decide +kernel, fun undisturbed => ?_⟩
  have hkey := undisturbed.aesKey
  revert hkey
  decide +kernel

end Endpoint

end Sxaint.Net
