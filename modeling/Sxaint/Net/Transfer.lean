/-
# A whole transfer

A receiver that is given what a sender transmits, each message at most once and the
chunks after the acknowledgement, in any order and with any interleaving of its tasks.
No chunk is dropped on the way. The counter hands out each of its values once, so that
only the task with the last one declares the transfer complete, and by then every other
task has marked its chunk and the view holds the file.
-/

import Sxaint.Net.Completion
import Sxaint.Net.Outbox

namespace Sxaint.Net

open Sxaint.Core Transition

/-- The message that an event brings in. -/
def Event.delivered? : Event → Option (List UInt8)
  | .deliver data => some data
  | _ => none

/-- The messages that were delivered, in order. -/
def deliveries (events : List Event) : List (List UInt8) :=
  events.filterMap Event.delivered?

/-- The message that a task was queued for. -/
def Task.origin : Task → List UInt8
  | .handshake hs _ => hs.encode
  | .recvChunk header payload _ => header.encode ++ payload
  | .sendChunk _ _ => []

/-- The value of the counter that a task got. -/
def Task.received? : Task → Option ℕ
  | .recvChunk _ _ pc => pc.received?.map UInt32.toNat
  | _ => none

/-- Whether a task has declared the transfer complete. -/
def Task.completes : Task → Bool
  | .recvChunk _ _ (.stored _ true) => true
  | _ => false

namespace Endpoint

variable {P : Platform} {file : SourceFile} {key : List UInt8} {hs : Handshake}

/-- Chunks arrive when an acknowledgement has been sent. -/
def AfterAck (w : Endpoint) (event : Event) : Prop :=
  ∀ message ∈ event.chunk?, ∃ frame ∈ w.outbox, IsAck frame

instance (w : Endpoint) (event : Event) : Decidable (w.AfterAck event) :=
  inferInstanceAs (Decidable (∀ message ∈ event.chunk?, _))

/-- What holds of the task of a chunk as it was sent. -/
structure ChunkFlow (P : Platform) (file : SourceFile) (key : List UInt8) (w : Endpoint)
    (header : ChunkWireHeader) (payload : List UInt8) (pc : ChunkPc) : Prop where
  sent : ∃ i, file.Sent P key i (header, payload)
  kept : pc ≠ .dropped
  placed : ∀ target, pc = .check target →
    Buffer.block w.mappedBytes (chunkOffset header.chunkId)
      (file.chunk header.chunkId.toNat).length = file.chunk header.chunkId.toNat
  marked : pc.beforeMark = false →
    w.currentManifest.completedChunks[header.chunkId.toNat]? = some true
  decided : ∀ received last, pc = .stored received last →
    (last = true ↔ received = w.expectedChunks)

/-- What changes while chunks are stored: bytes of the view become those of the file and
bits are set. -/
structure Gains (file : SourceFile) (w v : Endpoint) : Prop where
  bytes : Buffer.Toward file.contents w.mappedBytes v.mappedBytes
  bits : ∀ i : ℕ, w.currentManifest.completedChunks[i]? = some true →
    v.currentManifest.completedChunks[i]? = some true
  expectedChunks : v.expectedChunks = w.expectedChunks

theorem gains_of_same {w v : Endpoint} (fileMapper : v.fileMapper = w.fileMapper)
    (bits : v.currentManifest.completedChunks = w.currentManifest.completedChunks)
    (expectedChunks : v.expectedChunks = w.expectedChunks) : Gains file w v := by
  refine ⟨?_, fun i h => by rw [bits]; exact h, expectedChunks⟩
  have hbytes : v.mappedBytes = w.mappedBytes := by rw [mappedBytes, fileMapper, mappedBytes]
  rw [hbytes]
  exact Buffer.toward_refl _ _

theorem chunkFlow_of_gains {w v : Endpoint} {header : ChunkWireHeader} {payload : List UInt8}
    {pc : ChunkPc} (flow : ChunkFlow P file key w header payload pc) (gains : Gains file w v) :
    ChunkFlow P file key v header payload pc :=
  ⟨flow.sent, flow.kept,
    fun target hpc => block_of_toward gains.bytes (block_chunk file _) (flow.placed target hpc),
    fun hpc => gains.bits _ (flow.marked hpc),
    fun received last hpc => gains.expectedChunks ▸ flow.decided received last hpc⟩

/-- Where the chunk is not marked yet, only the comparison of the checksum relies on
something. -/
theorem chunkFlow_of_beforeMark {w : Endpoint} {header : ChunkWireHeader} {payload : List UInt8}
    {pc : ChunkPc} (sent : ∃ i, file.Sent P key i (header, payload))
    (beforeMark : pc.beforeMark = true)
    (placed : ∀ target, pc = .check target →
      Buffer.block w.mappedBytes (chunkOffset header.chunkId)
        (file.chunk header.chunkId.toNat).length = file.chunk header.chunkId.toNat) :
    ChunkFlow P file key w header payload pc := by
  refine ⟨sent, ?_, placed, fun h => ?_, ?_⟩
  · rintro rfl
    cases beforeMark
  · rw [beforeMark] at h
    cases h
  · rintro _ _ rfl
    cases beforeMark

/-- Where it is marked, its bit is set. -/
theorem chunkFlow_of_marked {w : Endpoint} {header : ChunkWireHeader} {payload : List UInt8}
    {pc : ChunkPc} (sent : ∃ i, file.Sent P key i (header, payload)) (kept : pc ≠ .dropped)
    (past : pc.beforeMark = false)
    (bit : w.currentManifest.completedChunks[header.chunkId.toNat]? = some true)
    (decided : ∀ received last, pc = .stored received last →
      (last = true ↔ received = w.expectedChunks)) :
    ChunkFlow P file key w header payload pc := by
  refine ⟨sent, kept, ?_, fun _ => bit, decided⟩
  rintro _ rfl
  cases past

/-- No check fails for a chunk as it was sent. -/
theorem not_drops_of_chunkFlow {header : ChunkWireHeader} {payload : List UInt8} {pc : ChunkPc}
    {w : Endpoint} (supported : file.Supported P) (opened : Opened P file w)
    (good : ChunkTask P file w header payload pc)
    (flow : ChunkFlow P file w.aesKey w header payload pc) : ¬ Drops P header payload w pc := by
  obtain ⟨i, hsent⟩ := flow.sent
  have hinside : chunkOffset header.chunkId + header.originalSize.toNat ≤ file.contents.length :=
    hsent.inside_file
  have hsize : header.originalSize.toNat = (file.chunk header.chunkId.toNat).length :=
    hsent.describes.2.1
  intro reason
  cases pc with
  | enter =>
      rw [Drops, opened.covers.size] at reason
      have hpos := Chunker.chunkLength_pos (show 0 < Chunker.kDefaultChunkSize by decide)
        hsent.describes.1
      rw [SourceFile.length_chunk hsent.describes.1] at hsize
      rcases reason with hempty | hshort <;> omega
  | decrypt target =>
      obtain ⟨packed, hopens, -⟩ := hsent.opens supported
      cases hopens.symm.trans reason
  | check target =>
      obtain ⟨held, hheld, hsum⟩ := reason
      obtain ⟨rfl, -, -⟩ := good
      have hread : (w.target header).read w.fileMapper = _ :=
        read_viewSpan opened.covers hinside
      have hplaced := flow.placed _ rfl
      rw [← hsize] at hplaced
      rw [hread, hplaced] at hheld
      refine hsum ?_
      rw [← Option.some.inj hheld, hsent.toNat_chunkId]
      exact hsent.crc32.symm
  | _ => exact reason

/-- No access of its task leaves the memory it may use. -/
theorem not_faults_of_chunkFlow {header : ChunkWireHeader} {payload : List UInt8} {pc : ChunkPc}
    {w : Endpoint} (opened : Opened P file w) (good : ChunkTask P file w header payload pc)
    (flow : ChunkFlow P file key w header payload pc) : ¬ Faults w pc := by
  obtain ⟨i, hsent⟩ := flow.sent
  have hread : (w.target header).read w.fileMapper = _ :=
    read_viewSpan opened.covers hsent.inside_file
  intro reason
  cases pc with
  | decompress target plain | check target =>
      obtain ⟨rfl, -, -⟩ := good
      cases hread.symm.trans reason
  | _ => exact reason

/-- A chunk as it was sent has a bit. -/
theorem index_lt_of_chunkFlow {header : ChunkWireHeader} {payload : List UInt8} {pc : ChunkPc}
    {w : Endpoint} (opened : Opened P file w) (flow : ChunkFlow P file key w header payload pc) :
    header.chunkId.toNat < w.currentManifest.completedChunks.length := by
  obtain ⟨i, hsent⟩ := flow.sent
  rw [opened.bits]
  exact hsent.describes.1

/-- Decompression puts the chunk in place. -/
theorem placed_of_written {header : ChunkWireHeader} {payload plain held : List UInt8}
    {w : Endpoint} (supported : file.Supported P) (opened : Opened P file w)
    (good : ChunkTask P file w header payload (.decompress (w.target header) plain))
    (sent : ∃ i, file.Sent P w.aesKey i (header, payload))
    (live : (w.target header).read w.fileMapper = some held) :
    let result := SmartCompressor.decompress P.codecs plain held
      (Strategy.ofByte header.compressStra)
    let v := { w with fileMapper := (w.target header).write result.2 w.fileMapper }
    result.1 ≠ none ∧ Buffer.Toward file.contents w.mappedBytes v.mappedBytes ∧
      Buffer.block v.mappedBytes (chunkOffset header.chunkId)
        (file.chunk header.chunkId.toNat).length = file.chunk header.chunkId.toNat := by
  obtain ⟨i, hsent⟩ := sent
  obtain ⟨-, hinside, hopen⟩ := good
  have hsize : header.originalSize.toNat = (file.chunk header.chunkId.toNat).length :=
    hsent.describes.2.1
  obtain rfl : Buffer.block w.mappedBytes (chunkOffset header.chunkId)
      header.originalSize.toNat = held :=
    Option.some.inj ((read_viewSpan opened.covers hinside).symm.trans live)
  have hfits : chunkOffset header.chunkId + header.originalSize.toNat ≤ w.mappedBytes.length := by
    rwa [length_mappedBytes opened.covers]
  obtain ⟨packed, hopens, hrestores⟩ := hsent.opens supported
  obtain rfl : packed = plain := Option.some.inj (hopens.symm.trans hopen)
  have hresult := hrestores _ ((Buffer.length_block_of_le hfits).trans hsent.toNat_originalSize)
  rw [← hsent.toNat_chunkId] at hresult
  intro result v
  have hbytes : v.mappedBytes = Buffer.overwrite w.mappedBytes (chunkOffset header.chunkId)
      (file.chunk header.chunkId.toNat) := by
    have hwrite := @mappedBytes_write _ (chunkOffset header.chunkId)
      (file.chunk header.chunkId.toNat) _ opened.covers
    rw [← hsize] at hwrite
    simp only [v, result, hresult]
    exact hwrite
  rw [hsize] at hfits
  refine ⟨?_, ?_, ?_⟩
  · simp only [result, hresult]
    exact Option.some_ne_none _
  · rw [hbytes]
    refine Buffer.toward_overwrite hfits ⟨(Buffer.length_block_of_le hfits).symm, fun _ => .inr ?_⟩
    rw [chunkOffset, block_chunk]
  · rw [hbytes]
    exact Buffer.block_overwrite_self hfits

/-- The task of a chunk takes its next step: no check fails, and the step gains. -/
theorem chunkFlow_chunkStep {header : ChunkWireHeader} {payload : List UInt8} {pc next : ChunkPc}
    {w v : Endpoint} (supported : file.Supported P) (opened : Opened P file w)
    (good : ChunkTask P file w header payload pc)
    (flow : ChunkFlow P file w.aesKey w header payload pc)
    (taken : ChunkStep P header payload w pc next v) :
    ChunkFlow P file w.aesKey v header payload next ∧ Gains file w v ∧ v.fault = w.fault := by
  have hsame : Gains file w w := gains_of_same rfl rfl rfl
  cases taken with
  | targeted _ _ => exact ⟨chunkFlow_of_beforeMark flow.sent rfl nofun, hsame, rfl⟩
  | decrypted _ => exact ⟨chunkFlow_of_beforeMark flow.sent rfl nofun, hsame, rfl⟩
  | @written target plain held next live result =>
      obtain rfl := good.1
      obtain ⟨hsome, htoward, hplaced⟩ := placed_of_written supported opened good flow.sent live
      rw [if_neg hsome] at result
      subst result
      exact ⟨chunkFlow_of_beforeMark flow.sent rfl fun _ _ => hplaced,
        ⟨htoward, fun _ h => h, rfl⟩, rfl⟩
  | verified _ _ => exact ⟨chunkFlow_of_beforeMark flow.sent rfl nofun, hsame, rfl⟩
  | marked inside =>
      refine ⟨chunkFlow_of_marked flow.sent nofun rfl ?_ nofun,
        ⟨Buffer.toward_refl _ _, fun j hj => ?_, rfl⟩, rfl⟩
      · simp [inside]
      · simp only [List.getElem?_set]
        split
        · rfl
        · exact hj
  | strayed outside => exact (Nat.not_lt.mpr outside (index_lt_of_chunkFlow opened flow)).elim
  | metered | counted =>
      exact ⟨chunkFlow_of_marked flow.sent nofun rfl (flow.marked rfl) nofun,
        gains_of_same rfl rfl rfl, rfl⟩
  | reported =>
      rw [reportProgress_eq]
      exact ⟨chunkFlow_of_marked flow.sent nofun rfl (flow.marked rfl) nofun,
        gains_of_same rfl rfl rfl, rfl⟩
  | completed last =>
      refine ⟨chunkFlow_of_marked flow.sent nofun rfl (flow.marked rfl) ?_,
        gains_of_same rfl rfl rfl, rfl⟩
      rintro _ _ ⟨rfl, rfl⟩
      exact iff_of_true rfl last
  | finished more =>
      refine ⟨chunkFlow_of_marked flow.sent nofun rfl (flow.marked rfl) ?_, hsame, rfl⟩
      rintro _ _ ⟨rfl, rfl⟩
      exact iff_of_false Bool.false_ne_true more
  | dropped reason => exact (not_drops_of_chunkFlow supported opened good flow reason).elim
  | fault reason => exact (not_faults_of_chunkFlow opened good flow reason).elim

/-! ## The phases of a transfer -/

/-- Until the acknowledgement there is at most the task of the announcement. -/
structure Preparing (hs : Handshake) (w : Endpoint) : Prop where
  tasks : w.tasks = [] ∨ ∃ pc, w.tasks = [.handshake hs pc] ∧ pc ≠ .accepted
  unlatched : w.tasks = [] ∨ w.tasks = [.handshake hs .enter] → w.expectedChunks = 0
  unacknowledged : ∀ frame ∈ w.outbox, ¬ IsAck frame
  bits : ∀ i : ℕ, w.currentManifest.completedChunks[i]? ≠ some true
  chunksRecv : w.chunksRecv = 0
  transComplete : w.transComplete = false

/-- What holds of a task after the acknowledgement. -/
def FlowTask (P : Platform) (file : SourceFile) (key : List UInt8) (hs : Handshake)
    (w : Endpoint) : Task → Prop
  | .handshake other pc => other = hs ∧ pc = .accepted
  | .recvChunk header payload pc => ChunkFlow P file key w header payload pc
  | .sendChunk _ _ => False

/-- After it the other tasks are those of chunks as they were sent. Each value of the
counter up to the present one was got by one of them. -/
structure Flowing (P : Platform) (file : SourceFile) (key : List UInt8) (hs : Handshake)
    (w : Endpoint) : Prop where
  accepted : Task.handshake hs .accepted ∈ w.tasks
  tasks : ∀ task ∈ w.tasks, FlowTask P file key hs w task
  received : (w.tasks.filterMap Task.received?).Perm (List.range' 1 w.chunksRecv.toNat)
  complete : w.transComplete = w.tasks.any Task.completes

/-- The invariant of the run of a transfer, with the messages delivered so far. -/
structure Transferring (P : Platform) (file : SourceFile) (pin : UInt32) (fileName : List UInt8)
    (delivered : List (List UInt8)) (w : Endpoint) : Prop where
  defined : w.fault = .none
  origins : w.tasks.map Task.origin = delivered
  phase : Preparing (file.announcement pin fileName) w ∨
    Flowing P file (Crypto.deriveKey P.ssl pin) (file.announcement pin fileName) w

theorem flowTask_of_gains {w v : Endpoint} {task : Task} (flow : FlowTask P file key hs w task)
    (gains : Gains file w v) : FlowTask P file key hs v task := by
  cases task with
  | handshake _ _ => exact flow
  | recvChunk _ _ _ => exact chunkFlow_of_gains flow gains
  | sendChunk _ _ => exact flow

/-- A step that leaves the tasks alone. -/
private theorem flowing_of_same {w v : Endpoint} (inv : Flowing P file key hs w)
    (tasks : v.tasks = w.tasks) (gains : Gains file w v) (chunksRecv : v.chunksRecv = w.chunksRecv)
    (transComplete : v.transComplete = w.transComplete) : Flowing P file key hs v :=
  ⟨tasks ▸ inv.accepted,
    fun task hmem => flowTask_of_gains (inv.tasks task (tasks ▸ hmem)) gains,
    by rw [tasks, chunksRecv]; exact inv.received,
    by rw [tasks, transComplete]; exact inv.complete⟩

/-- A chunk as it was sent is queued. -/
private theorem flowing_submit {header : ChunkWireHeader} {payload : List UInt8} {w : Endpoint}
    (inv : Flowing P file key hs w) (sent : ∃ i, file.Sent P key i (header, payload)) :
    Flowing P file key hs (w.submit (.recvChunk header payload .enter)) := by
  have hgains : Gains file w (w.submit (.recvChunk header payload .enter)) :=
    gains_of_same rfl rfl rfl
  refine ⟨List.mem_append_left _ inv.accepted,
    Pool.forall_submit (fun task hmem => flowTask_of_gains (inv.tasks task hmem) hgains)
      (chunkFlow_of_beforeMark sent rfl nofun), ?_, ?_⟩
  · have hnone : (Task.recvChunk header payload .enter).received? = none := rfl
    simpa [submit, hnone] using inv.received
  · simpa [submit, Task.completes] using inv.complete

/-- A task of a chunk takes a step. -/
private theorem flowing_set {index : ℕ} {header : ChunkWireHeader} {payload : List UInt8}
    {pc next : ChunkPc} {w v : Endpoint} (inv : Flowing P file key hs w)
    (found : w.tasks[index]? = some (.recvChunk header payload pc)) (tasks : v.tasks = w.tasks)
    (gains : Gains file w v) (flow : ChunkFlow P file key v header payload next)
    (received : ((w.tasks.set index (.recvChunk header payload next)).filterMap
      Task.received?).Perm (List.range' 1 v.chunksRecv.toNat))
    (complete : v.transComplete =
      (w.tasks.set index (.recvChunk header payload next)).any Task.completes) :
    Flowing P file key hs
      { v with tasks := v.tasks.set index (.recvChunk header payload next) } := by
  have hset : Gains file v
      { v with tasks := v.tasks.set index (.recvChunk header payload next) } :=
    gains_of_same rfl rfl rfl
  simp only [tasks] at hset ⊢
  exact ⟨Pool.mem_set_of_ne found inv.accepted nofun _,
    Pool.forall_set (fun task hmem =>
      flowTask_of_gains (flowTask_of_gains (inv.tasks task hmem) gains) hset) index
      (chunkFlow_of_gains flow hset), received, complete⟩

/-- A step that does not touch the counter. -/
private theorem flowing_quiet {index : ℕ} {header : ChunkWireHeader} {payload : List UInt8}
    {pc next : ChunkPc} {w v : Endpoint} (inv : Flowing P file key hs w)
    (found : w.tasks[index]? = some (.recvChunk header payload pc)) (tasks : v.tasks = w.tasks)
    (gains : Gains file w v) (flow : ChunkFlow P file key v header payload next)
    (received : next.received? = pc.received?) (chunksRecv : v.chunksRecv = w.chunksRecv)
    (completes : (Task.recvChunk header payload next).completes =
      (Task.recvChunk header payload pc).completes)
    (transComplete : v.transComplete = w.transComplete) :
    Flowing P file key hs
      { v with tasks := v.tasks.set index (.recvChunk header payload next) } := by
  refine flowing_set inv found tasks gains flow ?_ ?_
  · rw [Pool.filterMap_set_eq found Task.received? (by simp only [Task.received?, received]),
      chunksRecv]
    exact inv.received
  · rw [Pool.any_set found completes, transComplete]
    exact inv.complete

/-- The counter hands out its next value. -/
private theorem flowing_count {index : ℕ} {header : ChunkWireHeader} {payload : List UInt8}
    {w : Endpoint} (inv : Flowing P file key hs w)
    (found : w.tasks[index]? = some (.recvChunk header payload .count))
    (few : w.tasks.length ≤ file.chunkCount + 1)
    (flow : ChunkFlow P file key { w with chunksRecv := w.chunksRecv + 1 } header payload
      (.report (w.chunksRecv + 1))) :
    Flowing P file key hs
      { w with
        chunksRecv := w.chunksRecv + 1
        tasks := w.tasks.set index (.recvChunk header payload (.report (w.chunksRecv + 1))) } := by
  have hperm := Pool.filterMap_set_perm found Task.received? rfl
    (show Task.received? (.recvChunk header payload (.report (w.chunksRecv + 1))) =
      some (w.chunksRecv + 1).toNat from rfl)
  have hset := Pool.mem_set_of_ne found inv.accepted nofun
    (.recvChunk header payload (.report (w.chunksRecv + 1)))
  have hless := Pool.length_filterMap_lt hset (show Task.received? (.handshake hs .accepted) = none
    from rfl)
  have hvalues := inv.received.length_eq
  rw [hperm.length_eq, List.length_cons, hvalues, List.length_range', List.length_set] at hless
  have hcount := (Chunker.totalChunks file.contents.length Chunker.kDefaultChunkSize).toNat_lt
  have hnext : (w.chunksRecv + 1).toNat = w.chunksRecv.toNat + 1 := by
    rw [UInt32.toNat_add]
    rw [SourceFile.chunkCount] at few
    exact Nat.mod_eq_of_lt (by simp only [UInt32.reduceToNat]; omega)
  refine flowing_set (v := { w with chunksRecv := w.chunksRecv + 1 }) inv found rfl
    (gains_of_same rfl rfl rfl) flow ?_ ?_
  · refine hperm.trans ((inv.received.cons _).trans ?_)
    simp only [hnext, List.range'_concat, Nat.one_mul, Nat.add_comm 1]
    exact (List.perm_append_singleton _ _).symm
  · exact inv.complete.trans (Pool.any_set found (show Task.completes
      (.recvChunk header payload (.report (w.chunksRecv + 1))) =
        Task.completes (.recvChunk header payload .count) from rfl)).symm

/-- The step of the task of a chunk. -/
private theorem flowing_chunkStep {index : ℕ} {header : ChunkWireHeader} {payload : List UInt8}
    {pc next : ChunkPc} {w v : Endpoint} (supported : file.Supported P)
    (opened : Opened P file w) (good : ChunkTask P file w header payload pc)
    (keyed : w.aesKey = key) (few : w.tasks.length ≤ file.chunkCount + 1)
    (inv : Flowing P file key hs w)
    (found : w.tasks[index]? = some (.recvChunk header payload pc))
    (taken : ChunkStep P header payload w pc next v) :
    v.fault = w.fault ∧ Flowing P file key hs
      { v with tasks := v.tasks.set index (.recvChunk header payload next) } := by
  subst keyed
  have hflow : ChunkFlow P file w.aesKey w header payload pc :=
    inv.tasks _ (List.mem_of_getElem? found)
  obtain ⟨hnext, hgains, hfault⟩ := chunkFlow_chunkStep supported opened good hflow taken
  refine ⟨hfault, ?_⟩
  cases taken with
  | targeted _ _ | decrypted _ | verified _ _ | marked _ | metered | finished _ =>
      exact flowing_quiet inv found rfl hgains hnext rfl rfl rfl rfl
  | written live result =>
      refine flowing_quiet inv found rfl hgains hnext ?_ rfl ?_ rfl
      · rw [result]
        split <;> rfl
      · rw [result]
        split <;> rfl
  | strayed outside => exact (Nat.not_lt.mpr outside (index_lt_of_chunkFlow opened hflow)).elim
  | counted => exact flowing_count inv found few hnext
  | reported =>
      rw [reportProgress_eq] at hgains hnext ⊢
      exact flowing_quiet inv found rfl hgains hnext rfl rfl rfl rfl
  | @completed received last =>
      refine flowing_set inv found rfl hgains hnext ?_ ?_
      · have hsame := Pool.filterMap_set_eq found Task.received?
          (show Task.received? (.recvChunk header payload (.stored received true)) =
            Task.received? (.recvChunk header payload (.compare received)) from rfl)
        exact hsame ▸ inv.received
      · have hlt := (List.getElem?_eq_some_iff.mp found).1
        exact (List.any_eq_true.mpr ⟨_, List.mem_set hlt _, rfl⟩).symm
  | dropped reason => exact (not_drops_of_chunkFlow supported opened good hflow reason).elim
  | fault reason => exact (not_faults_of_chunkFlow opened good hflow reason).elim

/-- Nothing is recorded as stored in a fresh manifest, so that it can be packed. -/
theorem packBitfield_ne_none {w : Endpoint} (allotted : Allotted hs w)
    (bits : ∀ i : ℕ, w.currentManifest.completedChunks[i]? ≠ some true) :
    w.currentManifest.packBitfield ≠ none := by
  refine Option.isSome_iff_ne_none.mp (TransferManifest.packBitfield_isSome_of_fresh ?_)
  rw [List.eq_replicate_iff, allotted.totalChunks]
  refine ⟨allotted.bits, fun bit hmem => ?_⟩
  obtain ⟨i, hi⟩ := List.getElem?_of_mem hmem
  cases bit with
  | false => rfl
  | true => exact (bits i hi).elim

/-- The step of the task of the announcement, up to the acknowledgement. -/
private theorem preparing_handshakeStep {index : ℕ} {pc next : HandshakePc} {w v : Endpoint}
    (exclusive : Exclusive P w) (pin : hs.pin = w.expectedPin)
    (terminated : hs.fileNameText ≠ none) (inv : Preparing hs w)
    (found : w.tasks[index]? = some (.handshake hs pc)) (alone : w.tasks = [.handshake hs pc])
    (taken : HandshakeStep P hs w pc next v) :
    v.fault = w.fault ∧
      (Preparing hs { v with tasks := v.tasks.set index (.handshake hs next) } ∨
        Flowing P file key hs { v with tasks := v.tasks.set index (.handshake hs next) }) := by
  have hset : w.tasks.set index (.handshake hs next) = [.handshake hs next] := by
    have hlt := (List.getElem?_eq_some_iff.mp found).1
    rw [alone, List.length_singleton] at hlt
    rw [alone, Nat.lt_one_iff.mp hlt]
    rfl
  have hunlatched : pc = .enter → w.expectedChunks = 0 := by
    rintro rfl
    exact inv.unlatched (.inr alone)
  have hstay {v : Endpoint} (tasks : v.tasks = w.tasks) (other : next ≠ .accepted)
      (started : next ≠ .enter) (outbox : v.outbox = w.outbox)
      (bits : ∀ i : ℕ, v.currentManifest.completedChunks[i]? ≠ some true)
      (chunksRecv : v.chunksRecv = 0) (transComplete : v.transComplete = w.transComplete) :
      Preparing hs { v with tasks := v.tasks.set index (.handshake hs next) } := by
    rw [tasks, hset]
    refine ⟨.inr ⟨next, rfl, other⟩, fun h => ?_, by rw [outbox]; exact inv.unacknowledged, bits,
      chunksRecv, transComplete.trans inv.transComplete⟩
    rcases h with h | h
    · cases h
    · cases h
      exact (started rfl).elim
  cases taken with
  | resumed latched _ => exact (latched (hunlatched rfl)).elim
  | rejected _ wrong => exact (wrong pin).elim
  | admitted _ _ | prepared _ | named _ _ | described | created | mapped | unmapped | published =>
      exact ⟨rfl, .inl (hstay rfl nofun nofun rfl inv.bits inv.chunksRecv rfl)⟩
  | searched _ | threw _ =>
      exact ⟨rfl, .inl (hstay rfl nofun nofun rfl inv.bits inv.chunksRecv rfl)⟩
  | unterminated endless => exact (terminated endless).elim
  | allotted =>
      refine ⟨rfl, .inl (hstay rfl nofun nofun rfl (fun i hbit => ?_) inv.chunksRecv rfl)⟩
      simp [List.getElem?_replicate] at hbit
  | recount => exact ⟨rfl, .inl (hstay rfl nofun nofun rfl inv.bits rfl rfl)⟩
  | acknowledged written =>
      refine ⟨rfl, .inr ?_⟩
      simp only [sendChunk, hset]
      refine ⟨List.mem_singleton_self _, fun task hmem => ?_, ?_, inv.transComplete⟩
      · rw [List.mem_singleton.mp hmem]
        exact ⟨rfl, rfl⟩
      · rw [inv.chunksRecv]
        exact List.Perm.refl []
  | packFault packing outside =>
      rcases packing with ⟨rfl, latched⟩ | rfl
      · exact (latched (hunlatched rfl)).elim
      · have hstage := exclusive.stage hs _ (List.mem_of_getElem? found) (holds_of_inProgress rfl)
        exact (packBitfield_ne_none hstage.2.1 inv.bits outside).elim

/-! ## Runs -/

theorem delivered_append (events : List Event) (event : Event) :
    deliveries (events ++ [event]) = deliveries events ++ event.delivered?.toList := by
  rw [deliveries, List.filterMap_append, deliveries]
  cases hdata : event.delivered? <;> simp [hdata]

/-- The announcement is not delivered a second time. -/
theorem not_announced_twice {pin : UInt32} {fileName : List UInt8}
    {delivered : List (List UInt8)} {pc : HandshakePc} {w : Endpoint}
    (supported : file.Supported P) (origins : w.tasks.map Task.origin = delivered)
    (queued : Task.handshake (file.announcement pin fileName) pc ∈ w.tasks) :
    ¬ (delivered ++ [(file.announcement pin fileName).encode]).Subperm
      (file.transmission P pin fileName) := by
  intro once
  have hmem : (file.announcement pin fileName).encode ∈ delivered := by
    rw [← origins]
    exact List.mem_map.mpr ⟨_, queued, rfl⟩
  have hfirst := List.count_pos_iff.mpr hmem
  have hcount := once.count_le (file.announcement pin fileName).encode
  rw [List.count_append, List.count_singleton_self,
    SourceFile.count_announcement supported] at hcount
  omega

/-- What is in place once the announcement is acknowledged. -/
theorem opened_of_flowing {w : Endpoint} (sendable : file.Sendable)
    (integrity : Integrity P file w) (inv : Flowing P file key hs w) :
    Opened P file w ∧ Storing P file w := by
  have hpublished : w.Published := ⟨hs, _, inv.accepted, .inr rfl⟩
  have hopened := opened_of_published (SourceFile.chunkCount_pos sendable) integrity.exclusive
    integrity.announced hpublished
  refine ⟨hopened, integrity.phase.resolve_left fun hphase => ?_⟩
  have hsize := hphase.writeView
  rw [hopened.covers.size] at hsize
  exact sendable.nonempty (List.eq_nil_of_length_eq_zero hsize)

/-- A message of the transfer arrives. -/
private theorem transferring_deliver {pin : UInt32} {fileName data : List UInt8}
    {delivered : List (List UInt8)} {w : Endpoint} (supported : file.Supported P)
    (inv : Transferring P file pin fileName delivered w) (ok : w.AfterAck (.deliver data))
    (once : (delivered ++ [data]).Subperm (file.transmission P pin fileName)) :
    Transferring P file pin fileName (delivered ++ [data]) (handleRecv data w) := by
  have hmem := once.subset (List.mem_append_right _ (List.mem_singleton_self _))
  rcases SourceFile.mem_transmission supported hmem with
    rfl | ⟨i, ⟨header, payload⟩, hsent, rfl, hcarried⟩
  · rw [handleRecv_of_handshakeIn (SourceFile.handshakeIn_announcement pin fileName)]
    refine ⟨inv.defined, by simp [submit, ← inv.origins, Task.origin], ?_⟩
    rcases inv.phase with hphase | hphase
    · rcases hphase.tasks with hempty | ⟨pc, hone, -⟩
      · refine .inl ⟨.inr ⟨.enter, by rw [submit, hempty]; rfl, by decide⟩,
          fun _ => hphase.unlatched (.inl hempty), hphase.unacknowledged, hphase.bits,
          hphase.chunksRecv, hphase.transComplete⟩
      · have hqueued : Task.handshake (file.announcement pin fileName) pc ∈ w.tasks := by
          rw [hone]
          exact List.mem_singleton_self _
        exact (not_announced_twice supported inv.origins hqueued once).elim
    · exact (not_announced_twice supported inv.origins hphase.accepted once).elim
  · rw [handleRecv_of_chunkIn hcarried]
    refine ⟨inv.defined, by simp [submit, ← inv.origins, Task.origin], ?_⟩
    rcases inv.phase with hphase | hphase
    · obtain ⟨frame, hframe, hack⟩ := ok (header, payload) hcarried
      exact (hphase.unacknowledged frame hframe hack).elim
    · exact .inr (flowing_submit hphase ⟨i, hsent⟩)

/-- A step of a thread other than the network thread leaves what was delivered. -/
private theorem transferring_of_same {pin : UInt32} {fileName : List UInt8}
    {delivered : List (List UInt8)} {w v : Endpoint}
    (inv : Transferring P file pin fileName delivered w) (defined : v.fault = w.fault)
    (tasks : v.tasks = w.tasks) (expectedChunks : v.expectedChunks = w.expectedChunks)
    (outbox : v.outbox = w.outbox) (fileMapper : v.fileMapper = w.fileMapper)
    (bits : v.currentManifest.completedChunks = w.currentManifest.completedChunks)
    (chunksRecv : v.chunksRecv = w.chunksRecv) (transComplete : v.transComplete = w.transComplete) :
    Transferring P file pin fileName delivered v := by
  refine ⟨defined.trans inv.defined, tasks ▸ inv.origins, inv.phase.imp (fun h => ?_) fun h =>
    flowing_of_same h tasks (gains_of_same fileMapper bits expectedChunks) chunksRecv
      transComplete⟩
  exact ⟨tasks ▸ h.tasks, by rw [tasks, expectedChunks]; exact h.unlatched,
    by rw [outbox]; exact h.unacknowledged, by rw [bits]; exact h.bits,
    chunksRecv.trans h.chunksRecv, transComplete.trans h.transComplete⟩

/-- A step of a transfer. -/
theorem transferring_step {pin : UInt32} {outputDir : Path} {fileName : List UInt8}
    {delivered : List (List UInt8)} {event : Event} {w w' : Endpoint}
    (sendable : file.Sendable) (supported : file.Supported P)
    (receiver : Receiver pin outputDir w) (integrity : Integrity P file w)
    (inv : Transferring P file pin fileName delivered w) (ok : w.AfterAck event)
    (once : (delivered ++ event.delivered?.toList).Subperm (file.transmission P pin fileName))
    (taken : step P event w = some w') :
    Transferring P file pin fileName (delivered ++ event.delivered?.toList) w' := by
  have hstep := (step_cases taken).2
  cases event with
  | deliver data =>
      obtain ⟨-, rfl⟩ := deliver_of_step taken
      exact transferring_deliver supported inv ok once
  | network =>
      cases hstep
      simp only [Event.delivered?, Option.toList_none, List.append_nil]
      exact transferring_of_same inv rfl rfl rfl rfl rfl rfl rfl rfl
  | main strategy waitSnd =>
      cases hstep with
      | main moved =>
          obtain ⟨-, rfl⟩ := returned_of_mainStep receiver.main moved
          simp only [Event.delivered?, Option.toList_none, List.append_nil]
          exact transferring_of_same inv rfl rfl rfl rfl rfl rfl rfl rfl
  | task index ok' =>
      simp only [Event.delivered?, Option.toList_none, List.append_nil] at once ⊢
      cases hstep with
      | @handshake _ _ hs pc next v found moved =>
          have htasks := (taskFrame_of_handshakeStep moved).tasks
          have horigins : (v.tasks.set index (.handshake hs next)).map Task.origin = delivered := by
            have hsame : Task.origin (.handshake hs next) = Task.origin (.handshake hs pc) := rfl
            rw [htasks, Pool.map_set_eq found Task.origin hsame, inv.origins]
          rcases inv.phase with hphase | hphase
          · rcases hphase.tasks with hempty | ⟨pc', hone, -⟩
            · rw [hempty] at found
              cases found
            · have hmem := List.mem_of_getElem? found
              rw [hone] at hmem
              cases List.mem_singleton.mp hmem
              obtain ⟨hfault, hnext⟩ := preparing_handshakeStep integrity.exclusive
                receiver.expectedPin.symm (SourceFile.fileNameText_announcement pin fileName)
                hphase found hone moved
              exact ⟨hfault.trans inv.defined, horigins, hnext⟩
          · obtain ⟨rfl, rfl⟩ : hs = _ ∧ pc = .accepted :=
              hphase.tasks _ (List.mem_of_getElem? found)
            exact (moved.false_of_returned (by decide) rfl).elim
      | @recvChunk _ _ header payload pc next v found moved =>
          have htasks := (chunkFrame_of_chunkStep moved).tasks
          rcases inv.phase with hphase | hphase
          · have hmem := List.mem_of_getElem? found
            rcases hphase.tasks with hempty | ⟨pc', hone, -⟩
            · rw [hempty] at hmem
              cases hmem
            · rw [hone] at hmem
              cases List.mem_singleton.mp hmem
          · obtain ⟨hopened, hstoring⟩ := opened_of_flowing sendable integrity hphase
            have hkey : w.aesKey = Crypto.deriveKey P.ssl pin := by
              rw [hopened.keyed, receiver.expectedPin]
            have hfew : w.tasks.length ≤ file.chunkCount + 1 := by
              have hle := once.length_le
              rwa [← inv.origins, List.length_map, SourceFile.length_transmission supported] at hle
            obtain ⟨hfault, hnext⟩ := flowing_chunkStep supported hopened
              (hstoring.tasks _ _ _ (List.mem_of_getElem? found)) hkey hfew hphase found moved
            refine ⟨hfault.trans inv.defined, ?_, .inr hnext⟩
            have hsame : Task.origin (.recvChunk header payload next) =
              Task.origin (.recvChunk header payload pc) := rfl
            simp only [htasks]
            rw [Pool.map_set_eq found Task.origin hsame, inv.origins]
      | sendChunk found _ => exact (receiver.tasks _ (List.mem_of_getElem? found)).elim

/-- What a transfer delivers does no harm. -/
theorem sound_of_transferring {pin : UInt32} {outputDir : Path} {fileName : List UInt8}
    {delivered : List (List UInt8)} {event : Event} {w : Endpoint} (sendable : file.Sendable)
    (supported : file.Supported P) (receiver : Receiver pin outputDir w)
    (inv : Transferring P file pin fileName delivered w)
    (once : (delivered ++ event.delivered?.toList).Subperm (file.transmission P pin fileName)) :
    w.Sound P file event := by
  have hsent : ∀ message ∈ event.chunk?,
      ∃ i, file.Sent P (Crypto.deriveKey P.ssl w.expectedPin) i message := by
    intro message hmessage
    cases event with
    | deliver data =>
        have hmem := once.subset (List.mem_append_right _ (List.mem_singleton_self _))
        rcases SourceFile.mem_transmission supported hmem with
          rfl | ⟨i, found, hfound, -, hcarried⟩
        · have hcarried : chunkIn (file.announcement pin fileName).encode = some message := hmessage
          have hnone := handshakeIn_of_chunkIn hcarried
          rw [SourceFile.handshakeIn_announcement] at hnone
          cases hnone
        · obtain rfl := Option.some.inj (hcarried.symm.trans hmessage)
          rw [receiver.expectedPin]
          exact ⟨i, hfound⟩
    | network | task _ _ | main _ _ => cases hmessage
  refine ⟨⟨fun hs hentering _ _ => ?_, fun message hmessage => ?_⟩,
    fun message hmessage _ => ?_⟩
  · obtain ⟨index, _, -, hread⟩ := index_of_taskAt (mem_entering.mp hentering)
    have hmem := List.mem_of_getElem? hread
    rcases inv.phase with hphase | hphase
    · rcases hphase.tasks with hempty | ⟨pc, hone, -⟩
      · rw [hempty] at hmem
        cases hmem
      · rw [hone] at hmem
        cases List.mem_singleton.mp hmem
        exact SourceFile.announces_announcement sendable pin fileName
    · obtain ⟨-, hpc⟩ := hphase.tasks _ hmem
      cases hpc
  · obtain ⟨i, hfound⟩ := hsent message hmessage
    exact hfound.authentic
  · obtain ⟨i, hfound⟩ := hsent message hmessage
    exact SourceFile.faithful_of_describes supported.inverts hfound.describes

/-- Every run of a receiver that is given each message of a transfer at most once, and the
chunks after the acknowledgement, keeps the invariants. -/
theorem transfer_run {pin : UInt32} {outputDir : Path} {fileName : List UInt8}
    {onProgress : Bool} {disk : List Path} {events : List Event} {w : Endpoint}
    (sendable : file.Sendable) (supported : file.Supported P)
    (run : (machine P (recvFile outputDir pin onProgress disk)).RunUnder AfterAck events w)
    (once : (deliveries events).Subperm (file.transmission P pin fileName)) :
    Integrity P file w ∧ Transferring P file pin fileName (deliveries events) w := by
  have hboth : (machine P (recvFile outputDir pin onProgress disk)).RunUnder
      (fun w event => w.Sound P file event) events w ∧
        Transferring P file pin fileName (deliveries events) w := by
    induction run with
    | start =>
        exact ⟨.start, rfl, rfl, .inl ⟨.inl rfl, fun _ => rfl, by simp [machine, recvFile],
          by simp [machine, recvFile], rfl, rfl⟩⟩
    | @snoc events w w' event prior ok taken ih =>
        rw [delivered_append] at once ⊢
        obtain ⟨hsound, hinv⟩ := ih ((List.sublist_append_left _ _).subperm.trans once)
        have hreceiver := receiver_run prior
        have hintegrity :=
          integrity_run supported.lawful (SourceFile.chunkCount_pos sendable) hsound
        exact ⟨hsound.snoc (sound_of_transferring sendable supported hreceiver hinv once) taken,
          transferring_step sendable supported hreceiver hintegrity hinv ok once taken⟩
  exact ⟨integrity_run supported.lawful (SourceFile.chunkCount_pos sendable) hboth.1, hboth.2⟩

/-! ## Outcome -/

/-- A transfer is complete: the view holds the file and every bit is set, no chunk task
has a write or a mark before it, and one task, the one that got the last value of the
counter, has declared it. -/
structure Completed (file : SourceFile) (w : Endpoint) : Prop where
  contents : w.writeView.read w.fileMapper = some file.contents
  bits : w.currentManifest.completedChunks = List.replicate file.chunkCount true
  settled : ∀ header payload pc, Task.recvChunk header payload pc ∈ w.tasks →
    pc.beforeMark = false
  once : w.tasks.countP Task.completes = 1
  last : ∀ header payload received, Task.recvChunk header payload (.stored received true) ∈
    w.tasks → received = w.currentManifest.totalChunks

/-- What holds throughout a transfer. -/
structure Correct (file : SourceFile) (w : Endpoint) : Prop where
  defined : w.fault = .none
  kept : ∀ header payload, Task.recvChunk header payload .dropped ∉ w.tasks
  completed : w.transComplete = true → Completed file w

theorem length_tasks_le {pin : UInt32} {fileName : List UInt8} {delivered : List (List UInt8)}
    {w : Endpoint} (supported : file.Supported P)
    (inv : Transferring P file pin fileName delivered w)
    (once : delivered.Subperm (file.transmission P pin fileName)) :
    w.tasks.length ≤ file.chunkCount + 1 := by
  have hle := once.length_le
  rwa [← inv.origins, List.length_map, SourceFile.length_transmission supported] at hle

theorem length_received {w : Endpoint} (inv : Flowing P file key hs w) :
    (w.tasks.filterMap Task.received?).length = w.chunksRecv.toNat := by
  rw [inv.received.length_eq, List.length_range']

/-- When the counter has reached the number of chunks, every chunk has its task and every
task has got its value. -/
theorem received_of_full {w : Endpoint} (inv : Flowing P file key hs w)
    (few : w.tasks.length ≤ file.chunkCount + 1) (full : file.chunkCount ≤ w.chunksRecv.toNat) :
    w.tasks.length = file.chunkCount + 1 ∧
      ∀ header payload pc, Task.recvChunk header payload pc ∈ w.tasks →
        pc.received?.isSome = true := by
  have hnone : Task.received? (.handshake hs .accepted) = none := rfl
  have hless := Pool.length_filterMap_lt inv.accepted hnone
  have hlength := length_received inv
  refine ⟨by omega, fun header payload pc hmem => ?_⟩
  have hsome := Pool.isSome_of_length_filterMap inv.accepted hnone (by omega) hmem nofun
  simpa [Task.received?] using hsome

/-- When every message has arrived and every task has marked its chunk, every bit is set. -/
theorem bits_of_settled {pin : UInt32} {fileName : List UInt8} {delivered : List (List UInt8)}
    {w : Endpoint} (supported : file.Supported P)
    (origins : w.tasks.map Task.origin = delivered)
    (inv : Flowing P file (Crypto.deriveKey P.ssl pin) (file.announcement pin fileName) w)
    (all : delivered.Perm (file.transmission P pin fileName))
    (settled : ∀ header payload pc, Task.recvChunk header payload pc ∈ w.tasks →
      pc.beforeMark = false) {i : ℕ} (inside : i < file.chunkCount) :
    w.currentManifest.completedChunks[i]? = some true := by
  obtain ⟨message, hsent, hmem⟩ :=
    SourceFile.exists_mem_transmission supported pin fileName inside
  rw [← all.mem_iff, ← origins] at hmem
  obtain ⟨task, htask, horigin⟩ := List.mem_map.mp hmem
  have hflow := inv.tasks task htask
  cases task with
  | handshake other pc =>
      have hkind := congrArg List.head? horigin
      simp only [Task.origin, Handshake.encode, ChunkWireHeader.encode, List.cons_append,
        List.head?_cons] at hkind
      cases hkind
  | recvChunk header payload pc =>
      have hdecode := congrArg ChunkWireHeader.decode horigin
      simp only [Task.origin, ChunkWireHeader.decode_encode] at hdecode
      have hid : header.chunkId.toNat = i := by
        rw [hdecode]
        exact hsent.toNat_chunkId
      rw [← hid]
      exact hflow.marked (settled _ _ _ htask)
  | sendChunk _ _ => exact hflow.elim

/-- A view that holds every chunk holds the file. -/
theorem contents_of_chunks {w : Endpoint} (sendable : file.Sendable) (opened : Opened P file w)
    (chunks : ∀ i < file.chunkCount,
      Buffer.block w.mappedBytes (i * Chunker.kDefaultChunkSize) (file.chunk i).length =
        file.chunk i) : w.writeView.read w.fileMapper = some file.contents := by
  have hlength := length_mappedBytes opened.covers
  have hsame : w.mappedBytes = file.contents := by
    refine Buffer.eq_of_blocks (show 0 < Chunker.kDefaultChunkSize by decide) hlength
      (show _ ≤ file.chunkCount * Chunker.kDefaultChunkSize from ?_) fun i hi => ?_
    · rw [hlength, SourceFile.chunkCount_eq sendable]
      have hdiv := Nat.div_add_mod (file.contents.length + Chunker.kDefaultChunkSize - 1)
        Chunker.kDefaultChunkSize
      have hmod := Nat.mod_lt (file.contents.length + Chunker.kDefaultChunkSize - 1)
        (show 0 < Chunker.kDefaultChunkSize by decide)
      rw [Nat.mul_comm]
      omega
    · have hchunk := chunks i hi
      rw [SourceFile.length_chunk hi] at hchunk
      rw [hlength]
      exact hchunk
  have hview : w.writeView = w.viewSpan 0 file.contents.length := by
    rw [viewSpan, Nat.add_zero, ← opened.covers.size]
  rw [hview, read_viewSpan opened.covers (Nat.zero_add _).le, hsame, Buffer.block_zero_length]

/-- The task that declares a transfer complete has got the last value of the counter. -/
theorem received_of_completes {w : Endpoint} (opened : Opened P file w)
    (inv : Flowing P file key hs w) {task : Task} (mem : task ∈ w.tasks)
    (completes : task.completes = true) : task.received? = some file.chunkCount := by
  have hflow := inv.tasks task mem
  cases task with
  | recvChunk header payload pc =>
      cases pc with
      | stored received last =>
          obtain rfl : last = true := by
            cases last
            · cases completes
            · rfl
          have hlast := (hflow.decided received true rfl).mp rfl
          rw [Task.received?, ChunkPc.received?, Option.map_some, hlast, opened.latched]
      | _ => cases completes
  | handshake _ _ | sendChunk _ _ => cases completes

/-- The flag is set by one task only. -/
theorem countP_completes {w : Endpoint} (opened : Opened P file w)
    (inv : Flowing P file key hs w) (complete : w.transComplete = true) :
    w.tasks.countP Task.completes = 1 := by
  have hle : w.tasks.countP Task.completes ≤
      (w.tasks.filterMap Task.received?).count file.chunkCount :=
    Pool.countP_le_count_filterMap fun task hmem hcompletes =>
      received_of_completes opened inv hmem hcompletes
  have honce := List.nodup_iff_count.mp
    (inv.received.nodup_iff.mpr List.nodup_range') file.chunkCount
  have hpos : 0 < w.tasks.countP Task.completes := by
    rw [inv.complete] at complete
    rw [List.countP_pos_iff]
    exact List.any_eq_true.mp complete
  omega

/-- Throughout a transfer, whatever the order of arrival and of the steps: no access goes
wrong, no chunk is dropped, and if the transfer is declared complete, it is. -/
theorem correct_of_transfer {pin : UInt32} {outputDir : Path} {fileName : List UInt8}
    {onProgress : Bool} {disk : List Path} {events : List Event} {w : Endpoint}
    (sendable : file.Sendable) (supported : file.Supported P)
    (run : (machine P (recvFile outputDir pin onProgress disk)).RunUnder AfterAck events w)
    (once : (deliveries events).Subperm (file.transmission P pin fileName)) :
    Correct file w := by
  obtain ⟨hintegrity, inv⟩ := transfer_run sendable supported run once
  refine ⟨inv.defined, fun header payload hmem => ?_, fun hcomplete => ?_⟩
  · rcases inv.phase with hphase | hphase
    · rcases hphase.tasks with hempty | ⟨pc, hone, -⟩
      · rw [hempty] at hmem
        cases hmem
      · rw [hone] at hmem
        cases List.mem_singleton.mp hmem
    · exact (hphase.tasks _ hmem).kept rfl
  · rcases inv.phase with hphase | hphase
    · cases hphase.transComplete.symm.trans hcomplete
    obtain ⟨hopened, hstoring⟩ := opened_of_flowing sendable hintegrity hphase
    have hfew := length_tasks_le supported inv once
    have hcount := countP_completes hopened hphase hcomplete
    obtain ⟨task, htask, hcompletes⟩ := List.countP_pos_iff.mp (hcount ▸ Nat.one_pos)
    have hfull : file.chunkCount ≤ w.chunksRecv.toNat := by
      have hvalue := List.mem_filterMap.mpr
        ⟨task, htask, received_of_completes hopened hphase htask hcompletes⟩
      have hrange := List.mem_range'_1.mp (hphase.received.mem_iff.mp hvalue)
      omega
    obtain ⟨hlength, hreceived⟩ := received_of_full hphase hfew hfull
    have hsettled : ∀ header payload pc, Task.recvChunk header payload pc ∈ w.tasks →
        pc.beforeMark = false := by
      intro header payload pc hmem
      have hsome := hreceived header payload pc hmem
      cases pc <;> first | rfl | cases hsome
    have hall : (deliveries events).Perm (file.transmission P pin fileName) := by
      refine once.perm_of_length_le ?_
      rw [SourceFile.length_transmission supported, ← inv.origins, List.length_map, hlength]
    have hbits : ∀ i < file.chunkCount, w.currentManifest.completedChunks[i]? = some true :=
      fun i hi => bits_of_settled supported inv.origins hphase hall hsettled hi
    refine ⟨contents_of_chunks sendable hopened fun i hi => hstoring.bits i (hbits i hi), ?_,
      hsettled, hcount, fun header payload received hmem => ?_⟩
    · refine List.eq_replicate_iff.mpr ⟨hopened.bits, fun bit hbit => ?_⟩
      obtain ⟨i, hi⟩ := List.getElem?_of_mem hbit
      have hlt := (List.getElem?_eq_some_iff.mp hi).1
      rw [hopened.bits] at hlt
      exact Option.some.inj (hi.symm.trans (hbits i hlt))
    · rw [hopened.total]
      exact ((hphase.tasks _ hmem).decided received true rfl).mp rfl

/-- A chunk task without a next step has returned. -/
theorem returned_of_processChunk {header : ChunkWireHeader} {payload : List UInt8}
    {pc : ChunkPc} {w : Endpoint} (stuck : processChunk P header payload pc w = none) :
    pc = .dropped ∨ ∃ received last, pc = .stored received last := by
  cases pc with
  | dropped => exact .inl rfl
  | stored received last => exact .inr ⟨received, last, rfl⟩
  | enter | decrypt _ | check _ | mark | compare _ =>
      simp only [processChunk] at stuck
      split at stuck <;> first | cases stuck | (split at stuck <;> cases stuck)
  | decompress _ _ =>
      simp only [processChunk] at stuck
      split at stuck
      · cases stuck
      · split at stuck <;> cases stuck
  | addBytes | count | report _ => cases stuck

/-- When every message has arrived and no task has a step left, the transfer has been
declared complete. -/
theorem transComplete_of_quiescent {pin : UInt32} {outputDir : Path} {fileName : List UInt8}
    {onProgress : Bool} {disk : List Path} {events : List Event} {w : Endpoint}
    (sendable : file.Sendable) (supported : file.Supported P)
    (run : (machine P (recvFile outputDir pin onProgress disk)).RunUnder AfterAck events w)
    (all : (deliveries events).Perm (file.transmission P pin fileName))
    (quiescent : ∀ index, step P (.task index true) w = none) : w.transComplete = true := by
  obtain ⟨hintegrity, inv⟩ := transfer_run sendable supported run all.subperm
  have hpos := SourceFile.chunkCount_pos sendable
  have hlength : w.tasks.length = file.chunkCount + 1 := by
    rw [← SourceFile.length_transmission supported pin fileName, ← all.length_eq, ← inv.origins,
      List.length_map]
  rcases inv.phase with hphase | hphase
  · rcases hphase.tasks with hempty | ⟨pc, hone, -⟩
    · rw [hempty, List.length_nil] at hlength
      omega
    · rw [hone, List.length_singleton] at hlength
      omega
  obtain ⟨hopened, -⟩ := opened_of_flowing sendable hintegrity hphase
  have hstored : ∀ task ∈ w.tasks, task ≠ .handshake (file.announcement pin fileName) .accepted →
      ∃ header payload received last,
        task = .recvChunk header payload (.stored received last) := by
    intro task hmem hne
    have hflow := hphase.tasks task hmem
    cases task with
    | handshake _ _ =>
        obtain ⟨rfl, rfl⟩ := hflow
        exact (hne rfl).elim
    | recvChunk header payload pc =>
        obtain ⟨index, hread⟩ := List.getElem?_of_mem hmem
        have hstuck := quiescent index
        simp only [step, inv.defined, hread, runTask, reduceCtorEq, if_false,
          Option.map_eq_none_iff] at hstuck
        rcases returned_of_processChunk hstuck with rfl | ⟨received, last, rfl⟩
        · exact (hflow.kept rfl).elim
        · exact ⟨_, _, _, _, rfl⟩
    | sendChunk _ _ => exact hflow.elim
  have honce : w.tasks.count (.handshake (file.announcement pin fileName) .accepted) ≤ 1 := by
    calc w.tasks.count (.handshake (file.announcement pin fileName) .accepted)
        ≤ (w.tasks.map Task.origin).count
            (Task.origin (.handshake (file.announcement pin fileName) .accepted)) :=
          List.count_le_count_map
      _ = 1 := by
          rw [inv.origins, all.count_eq]
          exact SourceFile.count_announcement supported pin fileName
  have hfull : w.tasks.length ≤ (w.tasks.filterMap Task.received?).length +
      w.tasks.count (.handshake (file.announcement pin fileName) .accepted) := by
    refine Pool.length_le_length_filterMap_add fun task hmem hne => ?_
    obtain ⟨header, payload, received, last, rfl⟩ := hstored task hmem hne
    rfl
  have hvalue : file.chunkCount ∈ w.tasks.filterMap Task.received? := by
    rw [hphase.received.mem_iff, List.mem_range'_1]
    rw [length_received hphase] at hfull
    omega
  obtain ⟨task, hmem, hreceived⟩ := List.mem_filterMap.mp hvalue
  obtain ⟨header, payload, received, last, rfl⟩ := hstored task hmem fun h => by
    rw [h] at hreceived
    cases hreceived
  have hlast : received = w.expectedChunks := by
    refine UInt32.toNat_inj.mp ?_
    rw [hopened.latched]
    exact Option.some.inj hreceived
  obtain rfl := ((hphase.tasks _ hmem).decided received last rfl).mpr hlast
  rw [hphase.complete]
  exact List.any_eq_true.mpr ⟨_, hmem, rfl⟩

/-- A sender and a receiver with one pin. Whatever of the sender's frames has reached the
receiver, each at most once and the chunks after the acknowledgement, in any order and with
any interleaving on both sides: the transfer is correct so far. When a session that skipped
nothing has ended, all its frames have arrived and no task of the receiver has a step left,
the transfer has been declared complete. -/
theorem transfer_correct {pin : UInt32} {outputDir : Path} {fileName : List UInt8}
    {progress onProgress : Bool} {files disk : List Path} {start sender receiver : Endpoint}
    {sends events : List Event} (sendable : file.Sendable) (supported : file.Supported P)
    (opened : sendFile fileName file.contents pin progress files = some start)
    (serving :
      (machine P start).RunUnder (fun w event => w.Serves file.strategy event) sends sender)
    (receiving : (machine P (recvFile outputDir pin onProgress disk)).RunUnder AfterAck events
      receiver)
    (once : (deliveries events).Subperm (sender.outbox.map Prod.snd)) :
    Correct file receiver ∧
      (Served sender → (deliveries events).Perm (sender.outbox.map Prod.snd) →
        (∀ index, step P (.task index true) receiver = none) → receiver.transComplete = true) := by
  have hsent := outbox_subperm sendable.nonempty opened serving
  refine ⟨correct_of_transfer sendable supported receiving (once.trans hsent), ?_⟩
  intro served all quiescent
  have hall := outbox_perm sendable.nonempty opened serving served
  exact transComplete_of_quiescent sendable supported receiving (all.trans hall) quiescent

/-- A file of one byte arrives. -/
theorem transfer_of_letterA :
    let w := KnownAnswers.session.reached (KnownAnswers.acceptance 1 1 ++ KnownAnswers.storage 1)
    Correct letterA w ∧ w.transComplete = true := by
  have hserving : (machine KnownAnswers.platform (KnownAnswers.sender 65)).RunUnder
      (fun w event => w.Serves letterA.strategy event) KnownAnswers.sending _ :=
    Machine.runUnder_reached (by decide +kernel)
  have hreceiving : KnownAnswers.session.RunUnder AfterAck
      (KnownAnswers.acceptance 1 1 ++ KnownAnswers.storage 1) _ :=
    Machine.runUnder_reached (by decide +kernel)
  have hall : deliveries (KnownAnswers.acceptance 1 1 ++ KnownAnswers.storage 1) =
      ((machine KnownAnswers.platform (KnownAnswers.sender 65)).reached
        KnownAnswers.sending).outbox.map Prod.snd := by
    decide +kernel
  have hcorrect := transfer_correct (show letterA.Sendable from ⟨by decide, by decide⟩)
    ⟨KnownAnswers.ssl_lawful, SmartCompressor.inverts_none _ _,
      SmartCompressor.bounded_none _ (by decide)⟩
    (show sendFile [97] letterA.contents 123456 false [] = some (KnownAnswers.sender 65) from rfl)
    hserving hreceiving (hall ▸ List.Subperm.refl _)
  exact ⟨hcorrect.1, by decide +kernel⟩

end Endpoint

end Sxaint.Net
