/-
# What a sender has done when it returns

`sendFile` counts a chunk that it skips, and each of its tasks counts its chunk once it is handed to
the transport; it returns when the count has reached the number of chunks. So, unless it returned
because of a rejection, every chunk that the acknowledged bits do not have has been handed over.
This holds of every run, also of those that make the sender a receiver.
-/

import Sxaint.Net.Gating

namespace Sxaint.Net

open Sxaint.Core Transition

/-- The numbers of the first chunks. -/
def chunkIds (count : ℕ) : List UInt32 :=
  (List.range count).map UInt32.ofNat

/-- The numbers that some bits do not have. -/
def wantedIds (bits : List Bool) (ids : List UInt32) : List UInt32 :=
  ids.filter fun id => !bits.getD id.toNat false

theorem mem_wantedIds {bits : List Bool} {count i : ℕ} (small : count ≤ 2 ^ 32) (inside : i < count)
    (unknown : bits.getD i false = false) :
    UInt32.ofNat i ∈ wantedIds bits (chunkIds count) := by
  have hnat : (UInt32.ofNat i).toNat = i := by
    rw [UInt32.toNat_ofNat']
    exact Nat.mod_eq_of_lt (by omega)
  rw [wantedIds, List.mem_filter]
  refine ⟨List.mem_map.mpr ⟨i, List.mem_range.mpr inside, rfl⟩, ?_⟩
  rw [hnat, unknown]
  rfl

theorem map_id_slice {bytes : List UInt8} (nonempty : bytes ≠ []) :
    (Chunker.slice bytes Chunker.kDefaultChunkSize).map Chunk.id =
      chunkIds (Chunker.totalChunks bytes.length Chunker.kDefaultChunkSize).toNat := by
  rw [Chunker.slice, if_neg nonempty, List.map_map]
  rfl

/-- A chunk task that has counted its chunk. -/
def Task.isCounted : Task → Bool
  | .sendChunk _ .addBytes => true
  | .sendChunk _ .sent => true
  | _ => false

/-- What a chunk task has handed to the transport. -/
def Task.Handed (outbox : List (UInt32 × List UInt8)) : Task → Prop
  | .sendChunk job (.send wireBuffer) => ∃ payload, wireBuffer = job.wireBuffer payload
  | .sendChunk job .count | .sendChunk job .addBytes | .sendChunk job .sent =>
    ∃ payload, (job.chunkId % 4, job.wireBuffer payload) ∈ outbox
  | _ => True

theorem Task.Handed.grow {outbox later : List (UInt32 × List UInt8)} {task : Task}
    (handed : task.Handed outbox) (grown : outbox ⊆ later) : task.Handed later := by
  cases task with
  | sendChunk job pc =>
      cases pc with
      | count | addBytes | sent => exact handed.imp fun _ hmem => grown hmem
      | _ => exact handed
  | _ => trivial

/-- The thread of `sendFile` is about to look at `handshake_rejected_`. -/
def MainPc.checksRejected : MainPc → Bool
  | .checkRejected _ => true
  | _ => false

namespace Endpoint

variable {P : Platform}

/-- `sendFile` does not return because of a rejection in this step. -/
def Unrejected (w : Endpoint) (event : Event) : Prop :=
  event.strategy?.isSome = true → w.main.checksRejected = true → w.handshakeRejected = false

instance (w : Endpoint) (event : Event) : Decidable (w.Unrejected event) :=
  inferInstanceAs (Decidable (_ → _ → _))

/-- The chunks with some numbers were looked at: there are tasks for those that are wanted, and the
others are counted with the tasks that have counted. -/
structure LookedAt (w : Endpoint) (ids : List UInt32) : Prop where
  jobs : w.jobs.map SendJob.chunkId = wantedIds w.resumeBitfield ids
  counts : w.chunksSent.toNat + w.jobs.length = ids.length + w.tasks.countP Task.isCounted

/-- What holds where the thread of `sendFile` is, for a file of some size and number of chunks. -/
def SubmitMain (size count : ℕ) (w : Endpoint) : MainPc → Prop
  | .deriveKey args | .sendHandshake args | .waitAck args =>
    args.fileView = ⟨2, 0, size⟩ ∧ w.LookedAt []
  | .checkRejected args | .slice args =>
    args.fileView = ⟨2, 0, size⟩ ∧ w.handshakeAcked = true ∧ w.LookedAt []
  | .submit _ _ total rest =>
    w.handshakeAcked = true ∧ total.toNat = count ∧
      ∃ done, done ++ rest.map Chunk.id = chunkIds count ∧ w.LookedAt done
  | .drain total => w.handshakeAcked = true ∧ total.toNat = count ∧ w.LookedAt (chunkIds count)
  | .collect =>
    w.handshakeAcked = true ∧ count ≤ w.chunksSent.toNat ∧ w.LookedAt (chunkIds count)
  | .receiving => False
  | .returned =>
    w.handshakeAcked = true ∧ count ≤ w.chunksSent.toNat ∧ w.LookedAt (chunkIds count) ∧
      ∀ task ∈ w.tasks, task.isSending = false

/-- The invariant of runs of a sender that does not return because of a rejection. -/
structure Submitting (size count : ℕ) (w : Endpoint) : Prop where
  main : SubmitMain size count w w.main
  handed : ∀ task ∈ w.tasks, task.Handed w.outbox

theorem LookedAt.of_same {w v : Endpoint} {ids : List UInt32} (looked : w.LookedAt ids)
    (jobs : v.jobs = w.jobs)
    (counted : v.tasks.countP Task.isCounted = w.tasks.countP Task.isCounted)
    (chunksSent : v.chunksSent = w.chunksSent)
    (bits : ids = [] ∨ v.resumeBitfield = w.resumeBitfield) : v.LookedAt ids := by
  constructor
  · rw [jobs, looked.jobs]
    rcases bits with rfl | hbits
    · rfl
    · rw [hbits]
  · rw [jobs, counted, chunksSent]
    exact looked.counts

theorem length_chunkIds (count : ℕ) : (chunkIds count).length = count := by
  rw [chunkIds, List.length_map, List.length_range]

/-- What a step that leaves the thread of `sendFile` alone keeps. -/
theorem submitMain_mono {size count : ℕ} {w v : Endpoint} {pc : MainPc}
    (main : SubmitMain size count w pc)
    (looked : ∀ ids, ids.length ≤ count → w.LookedAt ids → ids = [] ∨ w.handshakeAcked = true →
      v.LookedAt ids ∧ w.chunksSent.toNat ≤ v.chunksSent.toNat)
    (acked : w.handshakeAcked = true → v.handshakeAcked = true)
    (idle : (∀ task ∈ w.tasks, task.isSending = false) →
      ∀ task ∈ v.tasks, task.isSending = false) : SubmitMain size count v pc := by
  have hall : (chunkIds count).length ≤ count := (length_chunkIds count).le
  cases pc with
  | deriveKey _ | sendHandshake _ | waitAck _ =>
      exact ⟨main.1, (looked [] (Nat.zero_le _) main.2 (.inl rfl)).1⟩
  | checkRejected _ | slice _ =>
      exact ⟨main.1, acked main.2.1, (looked [] (Nat.zero_le _) main.2.2 (.inl rfl)).1⟩
  | submit _ _ _ _ =>
      obtain ⟨hacked, htotal, done, hdone, hlooked⟩ := main
      have hlength : done.length ≤ count := by
        have hsum := congrArg List.length hdone
        rw [List.length_append, length_chunkIds] at hsum
        omega
      exact ⟨acked hacked, htotal, done, hdone, (looked done hlength hlooked (.inr hacked)).1⟩
  | drain _ =>
      obtain ⟨hacked, htotal, hlooked⟩ := main
      exact ⟨acked hacked, htotal, (looked _ hall hlooked (.inr hacked)).1⟩
  | collect =>
      obtain ⟨hacked, hcount, hlooked⟩ := main
      have hnext := looked _ hall hlooked (.inr hacked)
      exact ⟨acked hacked, hcount.trans hnext.2, hnext.1⟩
  | receiving => exact main
  | returned =>
      obtain ⟨hacked, hcount, hlooked, hidle⟩ := main
      have hnext := looked _ hall hlooked (.inr hacked)
      exact ⟨acked hacked, hcount.trans hnext.2, hnext.1, idle hidle⟩

section Submitting

variable {size count : ℕ} {w v : Endpoint}

/-- A task that sends no chunk takes the place of another one. -/
theorem submitting_set (inv : Submitting size count w) {index : ℕ} {old new : Task}
    (found : w.tasks[index]? = some old) (oldJob : old.job? = none) (newJob : new.job? = none)
    (tasks : v.tasks = w.tasks) (main : v.main = w.main) (chunksSent : v.chunksSent = w.chunksSent)
    (acked : v.handshakeAcked = w.handshakeAcked) (bits : v.resumeBitfield = w.resumeBitfield)
    (outbox : w.outbox ⊆ v.outbox) :
    Submitting size count { v with tasks := v.tasks.set index new } := by
  have hquiet {task : Task} (job : task.job? = none) :
      task.isCounted = false ∧ task.isSending = false ∧ task.Handed v.outbox := by
    cases task with
    | sendChunk _ _ => cases job
    | _ => exact ⟨rfl, rfl, trivial⟩
  have hset : v.tasks.set index new = w.tasks.set index new := by rw [tasks]
  constructor
  · show SubmitMain size count _ v.main
    rw [main]
    refine submitMain_mono inv.main ?_ (fun h => acked.trans h) ?_
    · intro ids _ looked _
      refine ⟨looked.of_same ?_ ?_ chunksSent (.inr bits), by rw [chunksSent]⟩
      · show (v.tasks.set index new).filterMap Task.job? = w.tasks.filterMap Task.job?
        rw [hset]
        exact Pool.filterMap_set_eq found Task.job? (newJob.trans oldJob.symm)
      · have hcount := Pool.countP_set_add found Task.isCounted new
        rw [(hquiet oldJob).1, (hquiet newJob).1] at hcount
        show (v.tasks.set index new).countP Task.isCounted = w.tasks.countP Task.isCounted
        rw [hset]
        exact hcount
    · intro hidle
      show ∀ task ∈ v.tasks.set index new, task.isSending = false
      rw [hset]
      exact Pool.forall_set hidle index (hquiet newJob).2.1
  · show ∀ task ∈ v.tasks.set index new, task.Handed v.outbox
    rw [hset]
    apply Pool.forall_set (fun task hmem => (inv.handed task hmem).grow outbox) index
    exact (hquiet newJob).2.2

/-- A task that sends no chunk is queued. -/
theorem submitting_submit (inv : Submitting size count w) {new : Task} (job : new.job? = none) :
    Submitting size count (w.submit new) := by
  have hquiet : new.isCounted = false ∧ new.isSending = false ∧ new.Handed w.outbox := by
    cases new with
    | sendChunk _ _ => cases job
    | _ => exact ⟨rfl, rfl, trivial⟩
  constructor
  · refine submitMain_mono inv.main ?_ id ?_
    · intro ids _ looked _
      refine ⟨looked.of_same ?_ ?_ rfl (.inr rfl), le_rfl⟩
      · simp [jobs, submit, job]
      · simp [submit, hquiet.1]
    · intro hidle
      exact Pool.forall_submit hidle hquiet.2.1
  · exact Pool.forall_submit inv.handed hquiet.2.2

/-- The counter of sent chunks has room for a chunk that has not counted. -/
theorem LookedAt.toNat_chunksSent_succ {ids : List UInt32} (looked : w.LookedAt ids)
    (room : w.tasks.countP Task.isCounted < w.jobs.length) (small : ids.length < 2 ^ 32) :
    (w.chunksSent + 1).toNat = w.chunksSent.toNat + 1 := by
  have hcounts := looked.counts
  rw [UInt32.toNat_add, show (1 : UInt32).toNat = 1 from rfl]
  exact Nat.mod_eq_of_lt (by omega)

theorem countP_isCounted_le (w : Endpoint) :
    w.tasks.countP Task.isCounted ≤ w.jobs.length := by
  rw [jobs, List.length_filterMap_eq_countP]
  apply List.countP_mono_left
  intro task _ hcounted
  cases task with
  | sendChunk _ _ => rfl
  | _ => cases hcounted

/-- What a step of a chunk task hands to the transport. -/
theorem handed_of_sendStep {job : SendJob} {pc next : SendPc} (taken : SendStep P job w pc next v)
    (handed : (Task.sendChunk job pc).Handed w.outbox) :
    (Task.sendChunk job next).Handed v.outbox ∧ w.outbox ⊆ v.outbox := by
  cases taken with
  | encrypted _ => exact ⟨⟨_, rfl⟩, List.Subset.refl _⟩
  | sent =>
      obtain ⟨payload, rfl⟩ := handed
      refine ⟨⟨payload, ?_⟩, List.subset_append_left _ _⟩
      exact List.mem_append_right _ (List.mem_singleton_self _)
  | counted | metered => exact ⟨handed, List.Subset.refl _⟩
  | _ => exact ⟨trivial, List.Subset.refl _⟩

/-- A chunk task takes a step. -/
theorem submitting_sendStep (inv : Submitting size count w) (small : count < 2 ^ 32) {index : ℕ}
    {job : SendJob} {pc next : SendPc} (found : w.tasks[index]? = some (.sendChunk job pc))
    (taken : SendStep P job w pc next v) :
    Submitting size count { v with tasks := v.tasks.set index (.sendChunk job next) } := by
  have hframe := senderFrame_of_sendStep taken
  have hset :
      v.tasks.set index (.sendChunk job next) = w.tasks.set index (.sendChunk job next) := by
    rw [hframe.tasks]
  have hjobs : (w.tasks.set index (.sendChunk job next)).filterMap Task.job? = w.jobs :=
    Pool.filterMap_set_eq found Task.job? rfl
  obtain ⟨hhanded, hgrown⟩ :=
    handed_of_sendStep taken (inv.handed _ (List.mem_of_getElem? found))
  have hcount := Pool.countP_set_add found Task.isCounted (.sendChunk job next)
  constructor
  · show SubmitMain size count _ v.main
    rw [hframe.main]
    refine submitMain_mono inv.main ?_ (fun h => hframe.acked.trans h) ?_
    · intro ids hlength looked _
      by_cases hcounting : pc = .count
      · subst hcounting
        cases taken with
        | counted =>
            have hroom : w.tasks.countP Task.isCounted < w.jobs.length := by
              have hle := countP_isCounted_le
                { w with tasks := w.tasks.set index (.sendChunk job .addBytes) }
              simp only [Task.isCounted, if_true, Bool.false_eq_true, if_false] at hcount
              simp only [jobs, hjobs] at hle
              rw [jobs]
              omega
            have hsucc := looked.toNat_chunksSent_succ hroom (by omega)
            refine ⟨⟨?_, ?_⟩, ?_⟩
            · simp only [jobs, hjobs]
              exact looked.jobs
            · have hcounts := looked.counts
              simp only [Task.isCounted, if_true, Bool.false_eq_true, if_false] at hcount
              simp only [jobs, hjobs, hsucc]
              rw [jobs] at hcounts
              omega
            · show w.chunksSent.toNat ≤ (w.chunksSent + 1).toNat
              omega
        | failed failing => rcases failing with h | ⟨_, h⟩ <;> cases h
      · have hsame : v.chunksSent = w.chunksSent ∧
            (Task.sendChunk job next).isCounted = (Task.sendChunk job pc).isCounted := by
          cases taken with
          | counted => exact (hcounting rfl).elim
          | failed failing => rcases failing with rfl | ⟨_, rfl⟩ <;> exact ⟨rfl, rfl⟩
          | _ => exact ⟨rfl, rfl⟩
        refine ⟨looked.of_same ?_ ?_ hsame.1 (.inr hframe.resumeBitfield), by rw [hsame.1]⟩
        · show (v.tasks.set index _).filterMap Task.job? = _
          rw [hset, hjobs]
        · show (v.tasks.set index _).countP Task.isCounted = _
          rw [hset]
          rw [hsame.2] at hcount
          omega
    · intro hidle
      have hsending := hidle _ (List.mem_of_getElem? found)
      cases taken with
      | failed failing => rcases failing with rfl | ⟨_, rfl⟩ <;> cases hsending
      | _ => cases hsending
  · show ∀ task ∈ v.tasks.set index _, task.Handed v.outbox
    rw [hset]
    exact Pool.forall_set (fun task hmem => (inv.handed task hmem).grow hgrown) index hhanded

/-- What `sendFile` finds at the end of its loops. -/
theorem drained_of_mainThread {strategy : Strategy} {waitSnd : UInt32 → Int} {total : UInt32}
    (taken : mainThread P strategy waitSnd w = some v) (main : w.main = .drain total) :
    v = w.reportProgress ∨
      ¬ w.chunksSent < total ∧ ∃ reports, v = { w with reports := reports, main := .collect } := by
  simp only [mainThread, main] at taken
  split at taken
  · cases taken
    exact .inl rfl
  · rename_i hdone
    cases taken
    exact .inr ⟨hdone, _, rfl⟩

theorem collected_of_mainThread {strategy : Strategy} {waitSnd : UInt32 → Int}
    (taken : mainThread P strategy waitSnd w = some v) (main : w.main = .collect) :
    (∀ task ∈ w.tasks, task.isSending = false) ∧ v = { w with main := .returned } := by
  simp only [mainThread, main] at taken
  split at taken
  · cases taken
  · rename_i hidle
    cases taken
    refine ⟨?_, rfl⟩
    intro task hmem
    by_contra hsending
    exact hidle (List.any_eq_true.mpr ⟨task, hmem, Bool.not_eq_false _ ▸ hsending⟩)

/-- The first chunk of the rest is looked at. -/
theorem lookedAt_concat {done : List UInt32} {id : UInt32} (looked : w.LookedAt done)
    (small : done.length + 1 < 2 ^ 32) :
    (w.resumeBitfield.getD id.toNat false = true →
      LookedAt { w with chunksSent := w.chunksSent + 1 } (done ++ [id])) ∧
    (w.resumeBitfield.getD id.toNat false = false → ∀ job : SendJob, job.chunkId = id →
      LookedAt (w.submit (.sendChunk job .compress)) (done ++ [id])) := by
  have hle := countP_isCounted_le w
  have hcounts := looked.counts
  constructor
  · intro hknown
    constructor
    · show w.jobs.map SendJob.chunkId = wantedIds w.resumeBitfield (done ++ [id])
      rw [looked.jobs, wantedIds, wantedIds, List.filter_append,
        List.filter_cons_of_neg (by rw [hknown]; decide), List.filter_nil, List.append_nil]
    · show (w.chunksSent + 1).toNat + w.jobs.length =
        (done ++ [id]).length + w.tasks.countP Task.isCounted
      have hsucc : (w.chunksSent + 1).toNat = w.chunksSent.toNat + 1 := by
        rw [UInt32.toNat_add, show (1 : UInt32).toNat = 1 from rfl]
        exact Nat.mod_eq_of_lt (by omega)
      rw [hsucc, List.length_append, List.length_singleton]
      omega
  · intro hunknown job hid
    have hjobs : (w.submit (.sendChunk job .compress)).jobs = w.jobs ++ [job] := by
      simp [jobs, submit, Task.job?]
    constructor
    · show (w.submit _).jobs.map SendJob.chunkId = wantedIds w.resumeBitfield (done ++ [id])
      rw [hjobs, List.map_append, looked.jobs, List.map_singleton, hid, wantedIds, wantedIds,
        List.filter_append, List.filter_cons_of_pos (by rw [hunknown]; rfl), List.filter_nil]
    · rw [hjobs, List.length_append, List.length_append, List.length_singleton,
        List.length_singleton]
      show w.chunksSent.toNat + (w.jobs.length + 1) =
        done.length + 1 + (w.tasks ++ [Task.sendChunk job .compress]).countP Task.isCounted
      rw [List.countP_append, List.countP_singleton]
      simp only [Task.isCounted, Bool.false_eq_true, if_false]
      omega

/-- A chunk that is still to be looked at leaves room in the count of those that were. -/
theorem length_succ_lt {done : List UInt32} {chunk : Chunk} {rest : List Chunk}
    (all : done ++ (chunk :: rest).map Chunk.id = chunkIds count) (small : count < 2 ^ 32) :
    done.length + 1 < 2 ^ 32 := by
  have hsum := congrArg List.length all
  rw [List.length_append, length_chunkIds, List.length_map, List.length_cons] at hsum
  omega

/-- The thread of `sendFile` takes a step. -/
theorem submitting_main (inv : Submitting size count w) (positive : 0 < size)
    (chunks : count = (Chunker.totalChunks size Chunker.kDefaultChunkSize).toNat)
    {strategy : Strategy} {waitSnd : UInt32 → Int}
    (unrejected : w.Unrejected (.main strategy waitSnd))
    (taken : mainThread P strategy waitSnd w = some v) : Submitting size count v := by
  have hsmall : count < 2 ^ 32 := by
    rw [chunks]
    exact UInt32.toNat_lt _
  have hmain := inv.main
  have hstep := mainStep_of_mainThread taken
  have hunrejected : w.main.checksRejected = true → w.handshakeRejected = false :=
    unrejected rfl
  generalize hpc : w.main = pc at hmain hstep hunrejected
  cases hstep with
  | keyed => exact ⟨⟨hmain.1, hmain.2.of_same rfl rfl rfl (.inr rfl)⟩, inv.handed⟩
  | announced =>
      refine ⟨⟨hmain.1, hmain.2.of_same rfl rfl rfl (.inr rfl)⟩, ?_⟩
      intro task hmem
      exact (inv.handed task hmem).grow (List.subset_append_left _ _)
  | acked published =>
      exact ⟨⟨hmain.1, published, hmain.2.of_same rfl rfl rfl (.inr rfl)⟩, inv.handed⟩
  | rejected refused =>
      rw [hunrejected rfl] at refused
      cases refused
  | accepted _ =>
      obtain ⟨hview, hacked, hlooked⟩ := hmain
      exact ⟨⟨hview, hacked, hlooked.of_same rfl rfl rfl (.inr rfl)⟩, inv.handed⟩
  | dangling _ =>
      refine ⟨?_, inv.handed⟩
      show SubmitMain size count _ w.main
      rw [hpc]
      obtain ⟨hview, hacked, hlooked⟩ := hmain
      exact ⟨hview, hacked, hlooked.of_same rfl rfl rfl (.inr rfl)⟩
  | @sliced args bytes live =>
      obtain ⟨hview, hacked, hlooked⟩ := hmain
      have hlength : bytes.length = size := by
        rw [hview] at live
        unfold Span.read at live
        rw [if_neg (Nat.ne_of_gt positive)] at live
        split at live
        · cases live
        · split at live
          · rename_i hinside
            rw [← Option.some.inj live]
            exact Buffer.length_block_of_le hinside.2
          · cases live
      have hnonempty : bytes ≠ [] := by
        rintro rfl
        rw [List.length_nil] at hlength
        omega
      refine ⟨⟨hacked, ?_, [], ?_, hlooked.of_same rfl rfl rfl (.inr rfl)⟩, inv.handed⟩
      · rw [Chunker.length_slice_of_ne_nil hnonempty, hlength, ← chunks, UInt32.toNat_ofNat']
        exact Nat.mod_eq_of_lt hsmall
      · rw [List.nil_append, map_id_slice hnonempty, hlength, chunks]
  | @skipped args chosen total chunk rest known =>
      obtain ⟨hacked, htotal, done, hdone, hlooked⟩ := hmain
      have hnext := (lookedAt_concat hlooked (length_succ_lt hdone hsmall)).1 known
      refine ⟨⟨hacked, htotal, done ++ [chunk.id], ?_, hnext.jobs, hnext.counts⟩, inv.handed⟩
      rw [List.append_assoc]
      exact hdone
  | @submitted args chosen total chunk rest unknown =>
      obtain ⟨hacked, htotal, done, hdone, hlooked⟩ := hmain
      have hnext := (lookedAt_concat hlooked (length_succ_lt hdone hsmall)).2 unknown
        (SendJob.ofChunk args.fileView chosen chunk) rfl
      refine ⟨⟨hacked, htotal, done ++ [chunk.id], ?_, hnext.jobs, hnext.counts⟩, ?_⟩
      · rw [List.append_assoc]
        exact hdone
      · exact Pool.forall_submit inv.handed trivial
  | drained =>
      obtain ⟨hacked, htotal, done, hdone, hlooked⟩ := hmain
      rw [List.map_nil, List.append_nil] at hdone
      rw [hdone] at hlooked
      exact ⟨⟨hacked, htotal, hlooked.of_same rfl rfl rfl (.inr rfl)⟩, inv.handed⟩
  | polled _ =>
      rw [reportProgress_eq]
      refine ⟨?_, inv.handed⟩
      show SubmitMain size count _ w.main
      rw [hpc]
      obtain ⟨hacked, htotal, hlooked⟩ := hmain
      exact ⟨hacked, htotal, hlooked.of_same rfl rfl rfl (.inr rfl)⟩
  | @finished total reports =>
      obtain ⟨hacked, htotal, hlooked⟩ := hmain
      refine ⟨⟨hacked, ?_, hlooked.of_same rfl rfl rfl (.inr rfl)⟩, inv.handed⟩
      rcases drained_of_mainThread taken hpc with hpolled | ⟨hdone, -⟩
      · have hcollect := congrArg Endpoint.main hpolled
        rw [reportProgress_eq] at hcollect
        exact absurd (hcollect.trans hpc) (by rintro ⟨⟩)
      · rw [UInt32.lt_iff_toNat_lt, htotal] at hdone
        exact Nat.le_of_not_lt hdone
  | returned done =>
      rcases done with rfl | ⟨rfl, -⟩
      · obtain ⟨hacked, hcount, hlooked⟩ := hmain
        obtain ⟨hidle, -⟩ := collected_of_mainThread taken hpc
        exact ⟨⟨hacked, hcount, hlooked.of_same rfl rfl rfl (.inr rfl), hidle⟩, inv.handed⟩
      · exact hmain.elim

/-- A step that leaves the thread of `sendFile` and the tasks alone. -/
theorem submitting_of_same (inv : Submitting size count w) (tasks : v.tasks = w.tasks)
    (main : v.main = w.main) (chunksSent : v.chunksSent = w.chunksSent)
    (outbox : v.outbox = w.outbox)
    (fixed : w.handshakeAcked = true →
      v.handshakeAcked = true ∧ v.resumeBitfield = w.resumeBitfield) :
    Submitting size count v := by
  have hjobs : v.jobs = w.jobs := by rw [jobs, jobs, tasks]
  constructor
  · rw [main]
    apply submitMain_mono inv.main
    · intro ids _ looked acked
      refine ⟨looked.of_same hjobs (by rw [tasks]) chunksSent ?_, by rw [chunksSent]⟩
      exact acked.imp_right fun h => (fixed h).2
    · intro acked
      exact (fixed acked).1
    · intro idle
      rw [tasks]
      exact idle
  · rw [tasks, outbox]
    exact inv.handed

theorem submitting_step (inv : Submitting size count w) (positive : 0 < size)
    (chunks : count = (Chunker.totalChunks size Chunker.kDefaultChunkSize).toNat)
    {event : Event} (unrejected : w.Unrejected event) (taken : step P event w = some v) :
    Submitting size count v := by
  have hsmall : count < 2 ^ 32 := by
    rw [chunks]
    exact UInt32.toNat_lt _
  have hstep := (step_cases taken).2
  have hfixed := fixed_of_step hstep
  cases hstep with
  | deliver _ received =>
      cases received with
      | handshake _ | chunk _ _ => exact submitting_submit inv rfl
      | ignored _ => exact inv
      | ackFault _ _ | acked _ _ _ | rejected _ =>
          exact submitting_of_same inv rfl rfl rfl rfl hfixed
  | network => exact submitting_of_same inv rfl rfl rfl rfl hfixed
  | handshake found taken' =>
      have hframe := taskFrame_of_handshakeStep taken'
      apply submitting_set inv found rfl rfl hframe.tasks hframe.main hframe.chunksSent
        hframe.handshakeAcked hframe.resumeBitfield
      cases taken' with
      | resumed _ _ | rejected _ _ | acknowledged _ => exact List.subset_append_left _ _
      | _ => exact List.Subset.refl _
  | recvChunk found taken' =>
      have hframe := chunkFrame_of_chunkStep taken'
      apply submitting_set inv found rfl rfl hframe.tasks hframe.main hframe.chunksSent
        hframe.handshakeAcked hframe.resumeBitfield
      rw [hframe.outbox]
      exact List.Subset.refl _
  | sendChunk found taken' => exact submitting_sendStep inv hsmall found taken'
  | main _ =>
      exact submitting_main inv positive chunks unrejected (mainThread_of_step taken)

end Submitting

/-! ## The acknowledgement -/

/-- An acknowledgement with the bits was delivered. -/
def HeardAck (events : List Event) (bits : List Bool) : Prop :=
  ∃ data ∈ deliveries events, acknowledges data = true ∧ ackBits data = some bits

theorem HeardAck.snoc {events : List Event} {bits : List Bool} (heard : HeardAck events bits)
    (event : Event) : HeardAck (events ++ [event]) bits := by
  obtain ⟨data, hmem, hack⟩ := heard
  refine ⟨data, ?_, hack⟩
  rw [delivered_append]
  exact List.mem_append_left _ hmem

/-- A sender that knows of no rejection has published bits that were delivered to it. -/
structure Informed (events : List Event) (w : Endpoint) : Prop where
  published : w.handshakeAcked = true ∨ w.net = .publishAcked →
    w.handshakeRejected = true ∨ HeardAck events w.resumeBitfield
  admitted : w.main.admitted = true ∨ w.main = .returned → HeardAck events w.resumeBitfield

/-- Only a rejection and an acknowledgement leave the network thread something to publish. -/
theorem messageKind_of_publishing {data : List UInt8} {w : Endpoint} (idle : w.net = .idle)
    (publishing : (handleRecv data w).net = .publishAcked) :
    messageKind data = some .handshakeReject ∨ messageKind data = some .handshakeAck := by
  have hquiet (net : (handleRecv data w).net = w.net) : False := by
    rw [net, idle] at publishing
    cases publishing
  cases data with
  | nil => exact (hquiet rfl).elim
  | cons type rest =>
      show MessageType.ofByte type = _ ∨ MessageType.ofByte type = _
      cases hkind : MessageType.ofByte type with
      | none =>
          rw [handleRecv, hkind] at hquiet
          exact (hquiet rfl).elim
      | some kind =>
          cases kind with
          | handshakeReject => exact .inl rfl
          | handshakeAck => exact .inr rfl
          | handshake =>
              rw [handleRecv, hkind] at hquiet
              dsimp only at hquiet
              split at hquiet
              all_goals exact (hquiet rfl).elim
          | chunkData =>
              rw [handleRecv, hkind] at hquiet
              dsimp only at hquiet
              split at hquiet
              · split at hquiet
                all_goals exact (hquiet rfl).elim
              · exact (hquiet rfl).elim

/-- What the network thread publishes is a rejection or an acknowledgement. -/
theorem acknowledges_of_handleRecv {data : List UInt8} {w : Endpoint} (idle : w.net = .idle)
    (publishing : (handleRecv data w).net = .publishAcked) :
    (handleRecv data w).handshakeRejected = true ∨
      acknowledges data = true ∧ ackBits data = some (handleRecv data w).resumeBitfield := by
  have hquiet {v : Endpoint} (net : v.net = w.net) (h : v.net = .publishAcked) : False := by
    rw [net, idle] at h
    cases h
  rcases messageKind_of_publishing idle publishing with hkind | hkind
  · left
    rw [handleRecv_of_rejection hkind]
  · right
    rw [handleRecv_of_acknowledgement hkind, processHandshakeACk] at publishing ⊢
    split at publishing
    · exact (hquiet rfl publishing).elim
    · rename_i hunacked
      split at publishing
      · exact (hquiet rfl publishing).elim
      · rename_i hwhole
        dsimp only at publishing ⊢
        rw [if_neg hunacked, if_neg hwhole]
        split at publishing
        · exact (hquiet rfl publishing).elim
        · rename_i bits hbits
          exact ⟨by simp [acknowledges, hkind, not_lt.mp hwhole], hbits⟩

/-- A message publishes nothing by itself, and takes no rejection back. -/
theorem flags_of_received {data : List UInt8} {w v : Endpoint} (received : Received data w v) :
    v.handshakeAcked = w.handshakeAcked ∧
      (w.handshakeRejected = true → v.handshakeRejected = true) := by
  cases received with
  | rejected _ => exact ⟨rfl, fun _ => rfl⟩
  | _ => exact ⟨rfl, id⟩

/-- The other threads do not take part in publishing. -/
theorem Informed.published_of_frame {events : List Event} {w v : Endpoint}
    (informed : Informed events w) (frame : AnswerFrame w v) (event : Event) :
    v.handshakeAcked = true ∨ v.net = .publishAcked →
      v.handshakeRejected = true ∨ HeardAck (events ++ [event]) v.resumeBitfield := by
  rw [frame.acked, frame.net, frame.rejected, frame.resumeBitfield]
  intro hpublished
  exact (informed.published hpublished).imp_right fun heard => heard.snoc event

theorem informed_step {size count : ℕ} {events : List Event} {event : Event} {w v : Endpoint}
    (inv : Submitting size count w) (informed : Informed events w)
    (unrejected : w.Unrejected event) (taken : step P event w = some v) :
    Informed (events ++ [event]) v := by
  have hstep := (step_cases taken).2
  have hacked : w.main.admitted = true ∨ w.main = .returned → w.handshakeAcked = true := by
    have hmain := inv.main
    generalize w.main = pc at hmain
    rintro (hadmitted | rfl)
    · cases pc with
      | slice _ => exact hmain.2.1
      | submit _ _ _ _ | drain _ | collect => exact hmain.1
      | _ => cases hadmitted
    · exact hmain.1
  cases event with
  | deliver data =>
      have hmain := (main_eq_of_step hstep rfl).1
      have hkept (acked : w.handshakeAcked = true) (heard : HeardAck events w.resumeBitfield) :
          HeardAck (events ++ [.deliver data]) v.resumeBitfield := by
        rw [(fixed_of_step hstep acked).2]
        exact heard.snoc _
      have hflags := flags_of_received (received_handleRecv data w)
      obtain ⟨hidle, rfl⟩ := deliver_of_step taken
      constructor
      · intro hpublished
        by_cases hbefore : w.handshakeAcked = true
        · rcases informed.published (.inl hbefore) with hrejected | hheard
          · exact .inl (hflags.2 hrejected)
          · exact .inr (hkept hbefore hheard)
        · have hunacked : ¬ (handleRecv data w).handshakeAcked = true := by
            rw [hflags.1]
            exact hbefore
          apply (acknowledges_of_handleRecv hidle (hpublished.resolve_left hunacked)).imp_right
          intro hack
          refine ⟨data, ?_, hack⟩
          rw [delivered_append]
          exact List.mem_append_right _ (List.mem_singleton_self _)
      · rw [hmain]
        intro hadmitted
        exact hkept (hacked hadmitted) (informed.admitted hadmitted)
  | network =>
      obtain ⟨hpublishing, rfl⟩ := publishing_of_step taken
      constructor
      · intro _
        exact (informed.published (.inr hpublishing)).imp_right fun h => h.snoc _
      · intro hadmitted
        exact (informed.admitted hadmitted).snoc _
  | task index ok =>
      have hframe := answerFrame_of_step hstep rfl (by rintro ⟨⟩)
      refine ⟨informed.published_of_frame hframe _, ?_⟩
      rw [(main_eq_of_step hstep rfl).1, hframe.resumeBitfield]
      intro hadmitted
      exact (informed.admitted hadmitted).snoc _
  | main strategy waitSnd =>
      have hframe := answerFrame_of_step hstep rfl (by rintro ⟨⟩)
      refine ⟨informed.published_of_frame hframe _, ?_⟩
      rw [hframe.resumeBitfield]
      have hentering (checking : w.main.checksRejected = true) :
          HeardAck events w.resumeBitfield := by
        have hacked : w.handshakeAcked = true := by
          have hmain := inv.main
          generalize w.main = pc at hmain checking
          cases pc with
          | checkRejected _ => exact hmain.2.1
          | _ => cases checking
        apply (informed.published (.inl hacked)).resolve_left
        rw [unrejected rfl checking]
        exact Bool.false_ne_true
      have hmain := inv.main
      cases hstep with
      | main taken' =>
          have hbefore := informed.admitted
          generalize w.main = pc at hmain hbefore hentering taken'
          intro hadmitted
          apply HeardAck.snoc
          cases taken' with
          | keyed | announced | acked _ =>
              rcases hadmitted with hadmitted | hreturned
              · cases hadmitted
              · cases hreturned
          | rejected _ | accepted _ => exact hentering rfl
          | returned done =>
              rcases done with rfl | ⟨rfl, -⟩
              · exact hbefore (.inl rfl)
              · exact hmain.elim
          | _ => exact hbefore (.inl rfl)

/-! ## Runs -/

section Runs

variable {fileName contents : List UInt8} {pin : UInt32} {onProgress : Bool} {disk : List Path}
  {start w : Endpoint} {events : List Event}

theorem submitting_run (opened : sendFile fileName contents pin onProgress disk = some start)
    (run : (machine P start).RunUnder Unrejected events w) :
    Submitting contents.length
        (Chunker.totalChunks contents.length Chunker.kDefaultChunkSize).toNat w ∧
      Informed events w := by
  rw [sendFile] at opened
  split at opened
  · cases opened
  · rename_i hnonempty
    have hpositive : 0 < contents.length := List.length_pos_iff.mpr hnonempty
    cases opened
    induction run with
    | start =>
        refine ⟨⟨⟨rfl, rfl, rfl⟩, by rintro _ ⟨⟩⟩, ?_, ?_⟩
        · rintro (h | h) <;> cases h
        · rintro (h | h) <;> cases h
    | snoc _ unrejected taken ih =>
        exact ⟨submitting_step ih.1 hpositive rfl unrejected taken,
          informed_step ih.1 ih.2 unrejected taken⟩

/-- All chunk tasks of a sender that has counted every chunk have counted theirs. -/
theorem isCounted_of_lookedAt {ids : List UInt32} (looked : w.LookedAt ids)
    (done : ids.length ≤ w.chunksSent.toNat) :
    ∀ task ∈ w.tasks, task.job?.isSome = true → task.isCounted = true := by
  have hlength : w.jobs.length = w.tasks.countP fun task => task.job?.isSome := by
    rw [jobs, List.length_filterMap_eq_countP]
  have hfew : (w.tasks.filter fun task => task.job?.isSome).length ≤
      (w.tasks.filter fun task => task.job?.isSome).countP Task.isCounted := by
    have hand : (fun task : Task => task.isCounted && task.job?.isSome) = Task.isCounted := by
      funext task
      cases task with
      | sendChunk job pc => exact Bool.and_true _
      | _ => rfl
    rw [List.countP_filter, hand, ← List.countP_eq_length_filter, ← hlength]
    have hcounts := looked.counts
    omega
  intro task hmem hjob
  apply List.countP_eq_length.mp (le_antisymm List.countP_le_length hfew)
  exact List.mem_filter.mpr ⟨hmem, hjob⟩

/-- The message of a chunk was handed to the transport, on the stream of the chunk. -/
def HandedOver (w : Endpoint) (i : ℕ) : Prop :=
  ∃ (job : SendJob) (payload : List UInt8), job.chunkId = UInt32.ofNat i ∧
    (job.chunkId % 4, job.wireBuffer payload) ∈ w.outbox

/-- A sender that has returned without a rejection was acknowledged, and has handed over every
chunk that the acknowledged bits do not have. -/
theorem handedOver_of_returned
    (opened : sendFile fileName contents pin onProgress disk = some start)
    (run : (machine P start).RunUnder Unrejected events w) (returned : w.main = .returned) :
    HeardAck events w.resumeBitfield ∧
      ∀ i < (Chunker.totalChunks contents.length Chunker.kDefaultChunkSize).toNat,
        w.resumeBitfield.getD i false = false → w.HandedOver i := by
  obtain ⟨hsubmitting, hinformed⟩ := submitting_run opened run
  refine ⟨hinformed.admitted (.inr returned), ?_⟩
  intro i hi hunknown
  have hmain := hsubmitting.main
  rw [returned] at hmain
  obtain ⟨-, hcount, hlooked, -⟩ := hmain
  have hcounted := isCounted_of_lookedAt hlooked (by rw [length_chunkIds]; exact hcount)
  have hwanted := mem_wantedIds (UInt32.toNat_lt _).le hi hunknown
  rw [← hlooked.jobs] at hwanted
  obtain ⟨job, hjob, hid⟩ := List.mem_map.mp hwanted
  obtain ⟨task, htask, hof⟩ := List.mem_filterMap.mp hjob
  have hdone := hcounted task htask (by rw [hof]; rfl)
  have hhanded := hsubmitting.handed task htask
  cases task with
  | handshake _ _ | recvChunk _ _ _ => cases hof
  | sendChunk job' pc =>
      cases hof
      cases pc with
      | addBytes | sent =>
          obtain ⟨payload, hmem⟩ := hhanded
          exact ⟨job, payload, hid, hmem⟩
      | _ => cases hdone

end Runs

end Endpoint

end Sxaint.Net
