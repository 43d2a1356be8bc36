/-
# What a sender hands to the transport

The frames of a sender that looks at no handshake: its announcement, then at most one
message for each chunk, in the order in which its tasks come to send. A session that has
ended with every chunk sent and none skipped has handed over all of them.
-/

import Sxaint.Net.Transmission

namespace Sxaint.Net

open Sxaint.Core Transition

/-- The chunk has been handed to the transport. -/
def SendPc.transmitted : SendPc → Bool
  | .count => true
  | .addBytes => true
  | .sent => true
  | _ => false

/-- The message that a task has handed to the transport, by the message of each job. -/
def Task.transmitted (message : SendJob → Option (List UInt8)) : Task → Option (List UInt8)
  | .sendChunk job pc => if pc.transmitted then message job else none
  | _ => none

namespace Endpoint

variable {P : Platform} {setUp : SetUp}

/-- No handshake is looked at, and chunks are compressed with one strategy. -/
def Serves (chosen : Strategy) (w : Endpoint) (event : Event) : Prop :=
  w.entering event = none ∧ ∀ strategy ∈ event.strategy?, strategy = chosen

instance (chosen : Strategy) (w : Endpoint) (event : Event) : Decidable (w.Serves chosen event) :=
  inferInstanceAs (Decidable (_ ∧ _))

/-- The message that the task of a job makes. -/
def SetUp.message (P : Platform) (setUp : SetUp) (job : SendJob) : Option (List UInt8) :=
  ((job.plaintext P.codecs setUp.view).bind fun bytes =>
    Crypto.encrypt P.ssl bytes (setUp.key P) job.chunkId).map job.wireBuffer

/-- The frames that the thread of `sendFile` has handed over. -/
def SetUp.opening (setUp : SetUp) : MainPc → List (List UInt8)
  | .deriveKey _ => []
  | .sendHandshake _ => []
  | _ => [setUp.args.handshake.encode]

/-- The frames handed over are the announcement and the messages of tasks that sent. -/
structure Transmitting (P : Platform) (setUp : SetUp) (w : Endpoint) : Prop where
  frames : (w.outbox.map Prod.snd).Perm
    (setUp.opening w.main ++ w.tasks.filterMap (Task.transmitted (setUp.message P)))
  ready : ∀ job wireBuffer, Task.sendChunk job (.send wireBuffer) ∈ w.tasks →
    setUp.message P job = some wireBuffer

/-- A task is queued that has sent nothing. -/
private theorem transmitting_submit {new : Task} {w : Endpoint} (inv : Transmitting P setUp w)
    (idle : new.transmitted (setUp.message P) = none)
    (fresh : ∀ job wireBuffer, new ≠ .sendChunk job (.send wireBuffer)) :
    Transmitting P setUp (w.submit new) := by
  refine ⟨by simpa [submit, idle] using inv.frames, fun job wireBuffer hmem => ?_⟩
  rcases List.mem_append.mp hmem with hold | hnew
  · exact inv.ready job wireBuffer hold
  · exact (fresh job wireBuffer (List.mem_singleton.mp hnew).symm).elim

/-- A task takes a step in which it sends nothing. -/
private theorem transmitting_set {index : ℕ} {old new : Task} {w v : Endpoint}
    (inv : Transmitting P setUp w) (found : w.tasks[index]? = some old)
    (tasks : v.tasks = w.tasks) (main : v.main = w.main) (outbox : v.outbox = w.outbox)
    (same : new.transmitted (setUp.message P) = old.transmitted (setUp.message P))
    (ready : ∀ job wireBuffer, new = .sendChunk job (.send wireBuffer) →
      setUp.message P job = some wireBuffer) :
    Transmitting P setUp { v with tasks := v.tasks.set index new } := by
  refine ⟨?_, fun job wireBuffer hmem => ?_⟩
  · simp only [tasks, main, outbox]
    rw [Pool.filterMap_set_eq found _ same]
    exact inv.frames
  · simp only [tasks] at hmem
    rcases List.mem_or_eq_of_mem_set hmem with hold | hnew
    · exact inv.ready job wireBuffer hold
    · exact ready job wireBuffer hnew.symm

/-- The step of a chunk task. -/
private theorem transmitting_sendStep {index : ℕ} {job : SendJob} {pc next : SendPc}
    {w v : Endpoint} (key : w.aesKey = setUp.key P)
    (plaintext : ∀ bytes, pc = .encrypt bytes → job.plaintext P.codecs setUp.view = some bytes)
    (inv : Transmitting P setUp w) (found : w.tasks[index]? = some (.sendChunk job pc))
    (taken : SendStep P job w pc next v) :
    Transmitting P setUp { v with tasks := v.tasks.set index (.sendChunk job next) } := by
  cases taken with
  | dangling _ => exact transmitting_set inv found rfl rfl rfl rfl nofun
  | compressed _ _ => exact transmitting_set inv found rfl rfl rfl rfl nofun
  | @encrypted bytes encrypted closed =>
      refine transmitting_set inv found rfl rfl rfl rfl fun job' wireBuffer hnew => ?_
      cases hnew
      rw [SetUp.message, plaintext bytes rfl, Option.bind_some, ← key, closed, Option.map_some]
  | unencrypted => exact transmitting_set inv found rfl rfl rfl rfl nofun
  | @sent wireBuffer =>
      have hready := inv.ready job wireBuffer (List.mem_of_getElem? found)
      have hperm := Pool.filterMap_set_perm found (Task.transmitted (setUp.message P)) rfl
        (show Task.transmitted (setUp.message P) (.sendChunk job .count) = some wireBuffer from
          hready)
      refine ⟨?_, fun job' wireBuffer' hmem => ?_⟩
      · simp only [sendChunk, List.map_append, List.map_cons, List.map_nil]
        refine (inv.frames.append_right _).trans ?_
        rw [List.append_assoc]
        exact ((List.perm_append_singleton _ _).trans hperm.symm).append_left _
      · rcases List.mem_or_eq_of_mem_set hmem with hold | hnew
        · exact inv.ready job' wireBuffer' hold
        · cases hnew
  | counted | metered => exact transmitting_set inv found rfl rfl rfl rfl nofun
  | failed failing =>
      rcases failing with rfl | ⟨_, rfl⟩ <;>
        exact transmitting_set inv found rfl rfl rfl rfl nofun

/-- The step of the thread of `sendFile`. -/
private theorem transmitting_main {chosen : Strategy → Prop} {strategy : Strategy}
    {w w' : Endpoint} (sender : Sender P setUp chosen w) (inv : Transmitting P setUp w)
    (taken : MainStep P strategy w w.main w') : Transmitting P setUp w' := by
  have hmain := sender.main
  have hframes := inv.frames
  generalize w.main = pc at hmain hframes taken
  cases taken with
  | keyed => exact ⟨hframes, inv.ready⟩
  | announced =>
      obtain ⟨rfl, -, -⟩ := hmain
      refine ⟨?_, inv.ready⟩
      simp only [sendChunk, List.map_append, List.map_cons, List.map_nil]
      exact (List.perm_append_comm).trans (hframes.append_left _)
  | submitted _ =>
      refine ⟨?_, fun job wireBuffer hmem => ?_⟩
      · have hidle (job : SendJob) : Task.transmitted (setUp.message P) (.sendChunk job .compress) =
            none := rfl
        simpa [submit, hidle, SetUp.opening] using hframes
      · rcases List.mem_append.mp hmem with hold | hnew
        · exact inv.ready job wireBuffer hold
        · cases List.mem_singleton.mp hnew
  | polled _ =>
      rw [reportProgress_eq]
      exact ⟨inv.frames, inv.ready⟩
  | dangling _ => exact ⟨inv.frames, inv.ready⟩
  | returned done =>
      rcases done with rfl | ⟨rfl, -⟩
      · exact ⟨hframes, inv.ready⟩
      · exact hmain.elim
  | _ => exact ⟨hframes, inv.ready⟩

/-- A step of a sender that looks at no handshake. -/
theorem transmitting_step {chosen : Strategy → Prop} {event : Event} {w w' : Endpoint}
    (sender : Sender P setUp chosen w) (inv : Transmitting P setUp w)
    (quiet : w.entering event = none) (taken : Step P w event w') : Transmitting P setUp w' := by
  cases taken with
  | deliver idle received =>
      cases received with
      | handshake _ | chunk _ _ => exact transmitting_submit inv rfl nofun
      | _ => exact ⟨inv.frames, inv.ready⟩
  | network => exact ⟨inv.frames, inv.ready⟩
  | @handshake index ok hs pc next v found taken =>
      have hpc : pc = .enter ∨ pc = .answered := sender.tasks _ (List.mem_of_getElem? found)
      rcases hpc with rfl | rfl
      · have hentering : hs ∈ w.entering (.task index ok) := mem_entering.mpr found
        rw [quiet] at hentering
        cases hentering
      · exact (taken.false_of_returned nofun rfl).elim
  | @recvChunk index ok header payload pc next v found taken =>
      have hframe := chunkFrame_of_chunkStep taken
      exact transmitting_set inv found hframe.tasks hframe.main hframe.outbox rfl nofun
  | @sendChunk index ok job pc next v found taken =>
      have hgood := sender.tasks _ (List.mem_of_getElem? found)
      have hjob : job ∈ w.jobs := List.mem_filterMap.mpr ⟨_, List.mem_of_getElem? found, rfl⟩
      refine transmitting_sendStep (aesKey_of_job sender hjob) ?_ inv found taken
      rintro bytes rfl
      exact hgood
  | main taken => exact transmitting_main sender inv taken

/-- Every run of a sender that looks at no handshake keeps the invariants. -/
theorem transmitting_run {fileName contents : List UInt8} {pin : UInt32} {onProgress : Bool}
    {disk : List Path} {start w : Endpoint} {strategy : Strategy} {events : List Event}
    (opened : sendFile fileName contents pin onProgress disk = some start)
    (run : (machine P start).RunUnder (fun w event => w.Serves strategy event) events w) :
    Sender P (SetUp.ofFile fileName contents pin disk) (· = strategy) w ∧
      Transmitting P (SetUp.ofFile fileName contents pin disk) w := by
  have hsender {events : List Event} {w : Endpoint}
      (run : (machine P start).RunUnder (fun w event => w.Serves strategy event) events w) :
      Sender P (SetUp.ofFile fileName contents pin disk) (· = strategy) w := by
    refine sender_run opened (fun w event ok hs hmem => ?_) (fun w event ok => ok.2) run
    rw [ok.1] at hmem
    cases hmem
  refine ⟨hsender run, ?_⟩
  induction run with
  | start =>
      rw [sendFile] at opened
      split at opened
      · cases opened
      · cases opened
        exact ⟨by simp [machine, SetUp.opening], by simp [machine]⟩
  | snoc prior ok taken ih =>
      exact transmitting_step (hsender prior) ih ok.1 (step_cases taken).2

/-! ## The transmission -/

/-- The jobs of all chunks of a file. -/
def allJobs (file : SourceFile) : List SendJob :=
  (List.range file.chunkCount).map (file.job 2)

theorem map_ofChunk_chunks {file : SourceFile} (nonempty : file.contents ≠ []) (pin : UInt32)
    (fileName : List UInt8) (disk : List Path) :
    (SetUp.ofFile fileName file.contents pin disk).chunks.map
        (SendJob.ofChunk (SetUp.ofFile fileName file.contents pin disk).args.fileView
          file.strategy) = allJobs file := by
  have hslice : (SetUp.ofFile fileName file.contents pin disk).chunks =
      (List.range file.chunkCount).map
        (Chunker.chunkAt file.contents Chunker.kDefaultChunkSize) := if_neg nonempty
  rw [hslice, List.map_map]
  rfl

/-- The indices below a bound of the chunks that the bits do not have. -/
def missing (bits : List Bool) (bound : ℕ) : List ℕ :=
  (List.range bound).filter fun i => !bits.getD i false

/-- The jobs of those chunks of a file. -/
def missingJobs (file : SourceFile) (bits : List Bool) (bound : ℕ) : List SendJob :=
  (missing bits bound).map (file.job 2)

/-- The chunks that the loop goes over are numbered from 0. -/
theorem ofChunks_eq_missingJobs (file : SourceFile) (bits : List Bool) {bound : ℕ}
    (inside : bound ≤ file.chunkCount) :
    SendJob.ofChunks bits ⟨2, 0, file.contents.length⟩ file.strategy
        ((List.range bound).map (Chunker.chunkAt file.contents Chunker.kDefaultChunkSize)) =
      missingJobs file bits bound := by
  have hsame : (List.range bound).filter ((fun chunk : Chunk => !bits.getD chunk.id.toNat false) ∘
      Chunker.chunkAt file.contents Chunker.kDefaultChunkSize) = missing bits bound := by
    refine List.filter_congr fun i hi => ?_
    have hlt : i < file.chunkCount := (List.mem_range.mp hi).trans_le inside
    rw [Function.comp_apply, Chunker.toNat_chunkAt_id hlt]
  rw [SendJob.ofChunks, List.filter_map, hsame, List.map_map]
  rfl

/-- The jobs of a sender are among those of the chunks of its file. -/
theorem jobs_sublist {file : SourceFile} {fileName : List UInt8} {pin : UInt32}
    {disk : List Path} {w : Endpoint} (nonempty : file.contents ≠ [])
    (sender : Sender P (SetUp.ofFile fileName file.contents pin disk) (· = file.strategy) w) :
    w.jobs.Sublist (allJobs file) := by
  have hsublist (bits : List Bool) {done : List Chunk}
      (part : done.Sublist (SetUp.ofFile fileName file.contents pin disk).chunks) :
      (SendJob.ofChunks bits (SetUp.ofFile fileName file.contents pin disk).args.fileView
        file.strategy done).Sublist (allJobs file) := by
    rw [← map_ofChunk_chunks nonempty pin fileName disk]
    exact (List.filter_sublist.trans part).map _
  have hmain := sender.main
  generalize w.main = pc at hmain
  cases pc with
  | deriveKey _ | sendHandshake _ | waitAck _ =>
      rw [hmain.2.2]
      exact List.nil_sublist _
  | checkRejected _ | slice _ =>
      rw [hmain.2.2.1]
      exact List.nil_sublist _
  | submit _ _ _ rest =>
      obtain ⟨-, -, -, rfl, done, hdone, hjobs⟩ := hmain
      rw [hjobs]
      exact hsublist _ (hdone ▸ List.sublist_append_left done rest)
  | drain _ | collect =>
      obtain ⟨-, -, _, rfl, hjobs⟩ := hmain
      rw [hjobs]
      exact hsublist _ (List.Sublist.refl _)
  | receiving => exact hmain.elim
  | returned =>
      obtain ⟨-, -, ⟨-, hjobs⟩ | ⟨_, rfl, hjobs⟩⟩ := hmain
      · rw [hjobs]
        exact List.nil_sublist _
      · rw [hjobs]
        exact hsublist _ (List.Sublist.refl _)

/-- The message of a chunk's job is the one transmitted for the chunk. -/
theorem message_job {file : SourceFile} (pin : UInt32) (fileName : List UInt8)
    (disk : List Path) {i : ℕ} (inside : i < file.chunkCount) :
    (SetUp.ofFile fileName file.contents pin disk).message P (file.job 2 i) =
      file.message P (Crypto.deriveKey P.ssl pin) i := by
  have hplain : (file.job 2 i).plaintext P.codecs
      (SetUp.ofFile fileName file.contents pin disk).view = file.packed P.codecs i :=
    SourceFile.plaintext_job 2 inside
  rw [SetUp.message, hplain]
  rfl

theorem filterMap_message {file : SourceFile} (pin : UInt32) (fileName : List UInt8)
    (disk : List Path) :
    (allJobs file).filterMap ((SetUp.ofFile fileName file.contents pin disk).message P) =
      (List.range file.chunkCount).filterMap (file.message P (Crypto.deriveKey P.ssl pin)) := by
  rw [allJobs, List.filterMap_map]
  apply List.filterMap_congr
  intro i hi
  rw [Function.comp_apply]
  exact message_job pin fileName disk (List.mem_range.mp hi)

/-- The messages of a sender's tasks are among those of its jobs. -/
theorem transmitted_sublist (message : SendJob → Option (List UInt8)) (w : Endpoint) :
    (w.tasks.filterMap (Task.transmitted message)).Sublist (w.jobs.filterMap message) := by
  rw [jobs, List.filterMap_filterMap]
  refine Pool.filterMap_sublist fun task _ => ?_
  cases task with
  | sendChunk job pc =>
      rw [Task.transmitted]
      split
      · exact .inr rfl
      · exact .inl rfl
  | handshake _ _ | recvChunk _ _ _ => exact .inl rfl

/-- Whatever a sender hands to the transport is transmitted, and each message once. -/
theorem outbox_subperm {file : SourceFile} {fileName : List UInt8} {pin : UInt32}
    {onProgress : Bool} {disk : List Path} {start w : Endpoint} {events : List Event}
    (nonempty : file.contents ≠ [])
    (opened : sendFile fileName file.contents pin onProgress disk = some start)
    (run : (machine P start).RunUnder (fun w event => w.Serves file.strategy event) events w) :
    (w.outbox.map Prod.snd).Subperm (file.transmission P pin fileName) := by
  obtain ⟨hsender, htransmitting⟩ := transmitting_run opened run
  have hmessages := (transmitted_sublist ((SetUp.ofFile fileName file.contents pin disk).message P)
    w).trans ((jobs_sublist nonempty hsender).filterMap _)
  rw [filterMap_message] at hmessages
  have hopening : ((SetUp.ofFile fileName file.contents pin disk).opening w.main).Sublist
      [(file.announcement pin fileName).encode] := by
    rw [SetUp.opening.eq_def]
    split
    · exact List.nil_sublist _
    · exact List.nil_sublist _
    · exact List.Sublist.refl _
  exact htransmitting.frames.subperm.trans (hopening.append hmessages).subperm

/-- Once every task has sent, the frames are the announcement and the messages of all jobs. -/
theorem frames_perm_of_sent {w : Endpoint} (inv : Transmitting P setUp w)
    (returned : w.main = .returned)
    (sent : ∀ task ∈ w.tasks, ∀ job ∈ task.job?, task = .sendChunk job .sent) :
    (w.outbox.map Prod.snd).Perm
      (setUp.args.handshake.encode :: w.jobs.filterMap (setUp.message P)) := by
  have hsame : w.tasks.filterMap (Task.transmitted (setUp.message P)) =
      w.jobs.filterMap (setUp.message P) := by
    rw [jobs, List.filterMap_filterMap]
    refine List.filterMap_congr fun task hmem => ?_
    cases task with
    | sendChunk job pc =>
        cases sent _ hmem job rfl
        rfl
    | handshake _ _ | recvChunk _ _ _ => rfl
  have hframes := inv.frames
  rw [hsame, returned] at hframes
  exact hframes

/-- A session has ended with every chunk sent and none skipped. -/
structure Served (w : Endpoint) : Prop where
  returned : w.main = .returned
  accepted : w.handshakeRejected = false
  fresh : ∀ i : ℕ, w.resumeBitfield.getD i false = false
  sent : ∀ task ∈ w.tasks, ∀ job ∈ task.job?, task = .sendChunk job .sent

/-- Such a session has handed everything to the transport. -/
theorem outbox_perm {file : SourceFile} {fileName : List UInt8} {pin : UInt32}
    {onProgress : Bool} {disk : List Path} {start w : Endpoint} {events : List Event}
    (nonempty : file.contents ≠ [])
    (opened : sendFile fileName file.contents pin onProgress disk = some start)
    (run : (machine P start).RunUnder (fun w event => w.Serves file.strategy event) events w)
    (served : Served w) : (w.outbox.map Prod.snd).Perm (file.transmission P pin fileName) := by
  obtain ⟨hsender, htransmitting⟩ := transmitting_run opened run
  have hjobs : w.jobs = allJobs file := by
    have hmain := hsender.main
    rw [served.returned] at hmain
    obtain ⟨-, -, ⟨hrejected, -⟩ | ⟨_, rfl, hjobs⟩⟩ := hmain
    · rw [served.accepted] at hrejected
      cases hrejected
    · rw [hjobs, SendJob.ofChunks, List.filter_eq_self.mpr fun chunk _ => by rw [served.fresh]; rfl]
      exact map_ofChunk_chunks nonempty pin fileName disk
  have hframes := frames_perm_of_sent htransmitting served.returned served.sent
  rw [hjobs, filterMap_message] at hframes
  exact hframes

end Endpoint

end Sxaint.Net
