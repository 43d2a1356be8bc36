/-
# What an acknowledgement promises

The sender starts to send chunks when it has an acknowledgement, and skips those whose
bits it carries. So the receiver has to be ready when it sends one, and the bits have
to be the ones it holds. Both hold of a handshake answered at the end of its own
initialisation; the branch that answers a second handshake tests neither whether the
first one has been initialised nor whether the two announce the same number of chunks.
-/

import Sxaint.Net.Initialisation
import Sxaint.Net.KnownAnswers

namespace Sxaint.Net

open Sxaint.Core Transition

/-- Whether a task has initialised the session for a handshake that announced chunks,
up to the acknowledgement at least. -/
def Task.built : Task → Bool
  | .handshake hs pc => (pc = .acknowledge ∨ pc = .accepted) && hs.totalChunks != 0
  | _ => false

/-- Whether a task is writing the members that an acknowledgement is made from. -/
def Task.building : Task → Bool
  | .handshake _ pc => pc.inProgress && pc != .acknowledge
  | _ => false

namespace Endpoint

variable {P : Platform}

/-! ## Readiness -/

/-- The receiver can store chunks: the manifest has a bit for each expected chunk, the
key is derived, and the view is the whole mapped file. -/
structure Ready (P : Platform) (w : Endpoint) : Prop where
  bits : w.currentManifest.completedChunks.length = w.currentManifest.totalChunks.toNat
  expected : w.currentManifest.totalChunks = w.expectedChunks
  key : Keyed P w
  view : Covers w.writeView w.currentManifest.fileSize.toNat w

/-- A handshake that is looked at while chunks are expected finds the handshake that
announced them initialised. -/
def InForceBuilt (w : Endpoint) (event : Event) : Prop :=
  ∀ _hs ∈ w.entering event, w.expectedChunks ≠ 0 → ∃ task ∈ w.tasks, task.built = true

instance (w : Endpoint) (event : Event) : Decidable (InForceBuilt w event) :=
  inferInstanceAs (Decidable (∀ hs ∈ w.entering event, _))

/-- No handshake is looked at while another one is half initialised, and none at all
after an initialisation that announced chunks has thrown. -/
def Orderly (w : Endpoint) (event : Event) : Prop :=
  OneAtATime w event ∧ InForceBuilt w event

instance (w : Endpoint) (event : Event) : Decidable (Orderly w event) :=
  inferInstanceAs (Decidable (_ ∧ _))

/-- An initialisation that got as far as its acknowledgement has made the receiver
ready. -/
theorem ready_of_built {hs : Handshake} {pc : HandshakePc} {w : Endpoint}
    (inv : Exclusive P w) (mem : Task.handshake hs pc ∈ w.tasks)
    (built : pc = .acknowledge ∨ pc = .accepted)
    (holds : (Task.handshake hs pc).holds = true) : Ready P w := by
  have hexpected := inv.expected hs pc mem holds
  have hstage := inv.stage hs pc mem holds
  have hbuilt : Keyed P w ∧ Allotted hs w ∧ Covers w.writeView hs.fileSize.toNat w := by
    rcases built with rfl | rfl <;> exact hstage
  obtain ⟨hkey, hallotted, hcovers⟩ := hbuilt
  refine ⟨?_, hallotted.totalChunks.trans hexpected.symm, hkey, ?_⟩
  · rw [hallotted.bits, hallotted.totalChunks]
  · rw [hallotted.fileSize]
    exact hcovers

/-- In every orderly run a receiver that acknowledges a handshake is ready. -/
theorem ready_of_ack {outputDir : Path} {pin : UInt32} {onProgress : Bool} {disk : List Path}
    {events : List Event} {event : Event} {w w' : Endpoint}
    (run : (machine P (recvFile outputDir pin onProgress disk)).RunUnder Orderly events w)
    (orderly : Orderly w event) (taken : step P event w = some w')
    (acked : ∃ frame ∈ sent w w', IsAck frame) : Ready P w := by
  have inv : Exclusive P w := exclusive_run (fun _ _ h => h.1) run
  have hanswer := answer_of_step (receiver_run run) (step_cases taken).2
  obtain ⟨frame, hmem, hack⟩ := acked
  generalize sent w w' = frames at hanswer hmem
  cases hanswer with
  | silent => cases hmem
  | rejected _ _ _ =>
      obtain rfl := List.mem_singleton.mp hmem
      cases hack
  | @acked hs pc packed found answering written =>
      rcases answering with ⟨rfl, latched⟩ | rfl
      · obtain ⟨task, hmem, hbuilt⟩ := orderly.2 hs (mem_entering.mpr found) latched
        cases task with
        | handshake prior pc =>
            obtain ⟨hpc, hnonzero⟩ : (pc = .acknowledge ∨ pc = .accepted) ∧
                prior.totalChunks ≠ 0 := by simpa [Task.built] using hbuilt
            refine ready_of_built inv hmem hpc ?_
            rcases hpc with rfl | rfl <;> simp [Task.holds, HandshakePc.inProgress, hnonzero]
        | recvChunk _ _ _ | sendChunk _ _ => cases hbuilt
      · obtain ⟨index, ok, rfl, hread⟩ := index_of_taskAt found
        exact ready_of_built inv (List.mem_of_getElem? hread) (.inl rfl) (holds_of_inProgress rfl)

/-- A handshake has been initialised and a second one waits. -/
def secondHandshakeEvents (totalChunks : UInt32) : List Event :=
  KnownAnswers.acceptance 1 1 ++
    [.deliver (KnownAnswers.handshakeMessage 123456 1 totalChunks)]

theorem ready_of_second_ack :
    Ready KnownAnswers.platform (KnownAnswers.session.reached (secondHandshakeEvents 1)) := by
  have htaken : step KnownAnswers.platform (.task 1 true)
      (KnownAnswers.session.reached (secondHandshakeEvents 1)) =
        some (KnownAnswers.session.reached (secondHandshakeEvents 1 ++ [.task 1 true])) := by
    decide +kernel
  exact ready_of_ack (Machine.runUnder_reached (by decide +kernel)) (by decide +kernel) htaken
    (by decide +kernel)

/-- Creating the file failed, and a second handshake waits. -/
def failedCreationEvents : List Event :=
  .deliver (KnownAnswers.handshakeMessage 123456 1 1) :: KnownAnswers.steps 0 7 ++
    [.task 0 false, .deliver (KnownAnswers.handshakeMessage 123456 1 1)]

/-- The second handshake is acknowledged although nothing is mapped. -/
theorem unready_ack :
    ∃ w w', KnownAnswers.session.Run failedCreationEvents w ∧
      step KnownAnswers.platform (.task 1 true) w = some w' ∧
      (∃ frame ∈ sent w w', IsAck frame) ∧ w.writeView.size = 0 ∧
      ¬ Ready KnownAnswers.platform w := by
  refine ⟨_, KnownAnswers.session.reached (failedCreationEvents ++ [.task 1 true]),
    Machine.run_reached (by decide +kernel), by decide +kernel, by decide +kernel,
    by decide +kernel, fun hready => ?_⟩
  have hmapped := hready.view.serial
  revert hmapped
  decide +kernel

/-! ## The bits -/

/-- The manifest is not being written: whatever initialisation is running has done
everything but its acknowledgement. -/
def Initialised (w : Endpoint) : Prop :=
  ∀ task ∈ w.tasks, task.building = false

instance (w : Endpoint) : Decidable (Initialised w) :=
  inferInstanceAs (Decidable (∀ task ∈ w.tasks, _))

/-- An acknowledgement has the length its count asks for, and a sender that waits for
one decodes it to the completion bits. -/
def AckAgrees (w : Endpoint) (data : List UInt8) : Prop :=
  data.length = HandshakeAck.size + ((HandshakeAck.decode data).totalChunks.toNat + 7) / 8 ∧
  ∀ sender : Endpoint, sender.handshakeAcked = false →
    processHandshakeACk data sender =
      { sender with
        resumeBitfield := w.currentManifest.completedChunks
        net := .publishAcked }

/-- Outside initialisations the manifest has one bit for each of its chunks. -/
theorem bits_of_initialised {w : Endpoint} (inv : Exclusive P w) (initialised : Initialised w) :
    w.currentManifest.completedChunks.length = w.currentManifest.totalChunks.toNat := by
  have hblank (h : Blank w) :
      w.currentManifest.completedChunks.length = w.currentManifest.totalChunks.toNat := by
    rw [h.bits, h.totalChunks]
    rfl
  have hallotted {hs : Handshake} (h : Allotted hs w) :
      w.currentManifest.completedChunks.length = w.currentManifest.totalChunks.toNat := by
    rw [h.bits, h.totalChunks]
  by_cases hheld : ∃ task ∈ w.tasks, task.holds = true
  · obtain ⟨task, hmem, hholds⟩ := hheld
    cases task with
    | handshake hs pc =>
        have hstage := inv.stage hs pc hmem hholds
        by_cases hrunning : pc.inProgress = true
        · obtain rfl : pc = .acknowledge := by
            simpa [Task.building, hrunning] using initialised _ hmem
          exact hallotted hstage.2.1
        · have hdone : pc = .accepted ∨ pc = .threw := by
            simp only [Task.holds, hrunning, Bool.false_or, Bool.and_eq_true,
              decide_eq_true_eq] at hholds
            exact hholds.1
          rcases hdone with rfl | rfl
          · exact hallotted hstage.2.1
          · exact hstage.elim hblank hallotted
    | recvChunk _ _ _ | sendChunk _ _ => cases hholds
  · have hnone : ∀ task ∈ w.tasks, task.holds = false := fun task hmem =>
      Bool.eq_false_iff.mpr fun h => hheld ⟨task, hmem, h⟩
    exact hblank (inv.free hnone).2

/-- How a waiting sender takes an acknowledgement. -/
theorem processHandshakeACk_ackMessage (totalChunks : UInt32) (packed : List UInt8)
    {sender : Endpoint} (waiting : sender.handshakeAcked = false) :
    processHandshakeACk (ackMessage totalChunks packed) sender =
      match BitField.readBits packed (List.range totalChunks.toNat) with
      | none => sender.crash
      | some bits => { sender with resumeBitfield := bits, net := .publishAcked } := by
  have hlength : ¬ (ackMessage totalChunks packed).length < HandshakeAck.size := by
    simp [ackMessage]
  rw [processHandshakeACk, if_neg (by simp [waiting]), if_neg hlength]
  show (match ackBits (ackMessage totalChunks packed) with
    | none => sender.crash
    | some bits => { sender with resumeBitfield := bits, net := .publishAcked }) = _
  rw [ackBits_ackMessage]

/-- A count announces the bits of a manifest: it is their number, the manifest's own count asks for
a field of the same size, which does not wrap, and the bits behind the manifest's count are clear.
-/
def AnnouncesBits (manifest : TransferManifest) (totalChunks : UInt32) : Prop :=
  manifest.completedChunks.length = totalChunks.toNat ∧
    manifest.totalChunks.toNat ≤ 2 ^ 32 - 8 ∧
    (manifest.totalChunks.toNat + 7) / 8 = (totalChunks.toNat + 7) / 8 ∧
    ∀ bit ∈ manifest.completedChunks.drop manifest.totalChunks.toNat, bit = false

instance (manifest : TransferManifest) (totalChunks : UInt32) :
    Decidable (AnnouncesBits manifest totalChunks) :=
  inferInstanceAs (Decidable (_ ∧ _ ∧ _ ∧ _))

/-- The bit of a packed field, for a chunk that has one. -/
private theorem testBit_packBitfield {manifest : TransferManifest} {packed : List UInt8}
    (written : manifest.packBitfield = some packed) (i : ℕ) :
    BitField.testBit packed i =
      decide (i < manifest.totalChunks.toNat ∧ manifest.completedChunks[i]? = some true) := by
  rw [BitField.testBit_of_writeBits written]
  simp

/-- The bits that a sender reads from a packed field are the completion bits, if the count
announces them. -/
private theorem readBits_of_announcesBits {manifest : TransferManifest} {packed : List UInt8}
    {totalChunks : UInt32} (written : manifest.packBitfield = some packed)
    (announces : AnnouncesBits manifest totalChunks) :
    BitField.readBits packed (List.range totalChunks.toNat) = some manifest.completedChunks := by
  obtain ⟨hcount, hbound, hsize, hclear⟩ := announces
  have hlength := TransferManifest.length_packBitfield written
  rw [TransferManifest.packedSize_of_le hbound] at hlength
  rw [BitField.readBits_eq_some]
  · congr 1
    apply List.ext_getElem
    · simp [hcount]
    · intro i hleft hright
      rw [List.getElem_map, List.getElem_range, testBit_packBitfield written,
        List.getElem?_eq_getElem hright]
      by_cases hi : i < manifest.totalChunks.toNat
      · simp [hi]
      · have hmem : manifest.completedChunks[i] ∈
            manifest.completedChunks.drop manifest.totalChunks.toNat := by
          refine List.mem_of_getElem? (i := i - manifest.totalChunks.toNat) ?_
          rw [List.getElem?_drop, Nat.add_sub_of_le (Nat.not_lt.mp hi),
            List.getElem?_eq_getElem hright]
        simp [hi, hclear _ hmem]
  · intro i hi
    have hlt := List.mem_range.mp hi
    omega

/-- An acknowledgement agrees with the manifest that it is made from exactly if its count announces
the bits of it. -/
theorem ackAgrees_iff {w : Endpoint} {totalChunks : UInt32} {packed : List UInt8}
    (written : w.currentManifest.packBitfield = some packed) :
    AckAgrees w (ackMessage totalChunks packed) ↔
      AnnouncesBits w.currentManifest totalChunks := by
  have hlength := TransferManifest.length_packBitfield written
  have hcount : (HandshakeAck.decode (ackMessage totalChunks packed)).totalChunks =
      totalChunks := by
    rw [ackMessage, HandshakeAck.decode_encode]
  have hsize : (ackMessage totalChunks packed).length = HandshakeAck.size + packed.length := by
    rw [ackMessage, List.length_append, HandshakeAck.length_encode]
  constructor
  · rintro ⟨hfield, hdecode⟩
    have hread : BitField.readBits packed (List.range totalChunks.toNat) =
        some w.currentManifest.completedChunks := by
      have hsender := hdecode {} rfl
      rw [processHandshakeACk_ackMessage totalChunks packed rfl] at hsender
      split at hsender
      · cases congrArg Endpoint.net hsender
      · rename_i bits hbits
        rw [hbits, show bits = _ from congrArg Endpoint.resumeBitfield hsender]
    rw [BitField.readBits_eq_some (BitField.inside_of_readBits hread), Option.some.injEq] at hread
    have hsame : w.currentManifest.completedChunks.length = totalChunks.toNat := by
      rw [← hread, List.length_map, List.length_range]
    rw [hsize, hcount, hlength] at hfield
    have hbound : w.currentManifest.totalChunks.toNat ≤ 2 ^ 32 - 8 := by
      by_contra hlarge
      have hfew := TransferManifest.totalChunks_le_of_packBitfield written
      rw [TransferManifest.packedSize_of_gt (Nat.not_le.mp hlarge)] at hfield
      omega
    rw [TransferManifest.packedSize_of_le hbound] at hfield
    refine ⟨hsame, hbound, by omega, fun bit hmem => ?_⟩
    obtain ⟨i, hi⟩ := List.getElem?_of_mem hmem
    rw [List.getElem?_drop, ← hread, List.getElem?_map] at hi
    obtain ⟨j, hj, rfl⟩ := Option.map_eq_some_iff.mp hi
    obtain ⟨hlt, rfl⟩ := List.getElem?_eq_some_iff.mp hj
    rw [List.getElem_range, testBit_packBitfield written]
    simp
  · intro hannounces
    refine ⟨?_, fun sender waiting => ?_⟩
    · rw [hsize, hcount, hlength, TransferManifest.packedSize_of_le hannounces.2.1,
        hannounces.2.2.1]
    · rw [processHandshakeACk_ackMessage _ packed waiting,
        readBits_of_announcesBits written hannounces]

/-- Where handshakes are accepted one at a time, the count that announces the bits is the
manifest's own, unless the size of its field wraps. -/
theorem announcesBits_iff {outputDir : Path} {pin : UInt32} {onProgress : Bool}
    {disk : List Path} {events : List Event} {w : Endpoint} {totalChunks : UInt32}
    (run : (machine P (recvFile outputDir pin onProgress disk)).RunUnder OneAtATime events w)
    (initialised : Initialised w) :
    AnnouncesBits w.currentManifest totalChunks ↔
      totalChunks = w.currentManifest.totalChunks ∧
        w.currentManifest.totalChunks.toNat ≤ 2 ^ 32 - 8 := by
  have hbits := bits_of_initialised (exclusive_run (fun _ _ h => h) run) initialised
  constructor
  · rintro ⟨hcount, hbound, -, -⟩
    exact ⟨UInt32.toNat_inj.mp (hcount.symm.trans hbits), hbound⟩
  · rintro ⟨rfl, hbound⟩
    refine ⟨hbits, hbound, rfl, ?_⟩
    rw [← hbits, List.drop_length]
    rintro _ ⟨⟩

/-- Whatever count a handshake announces, and in whatever state it is looked at: an
acknowledgement of it agrees with the bits held at its packing exactly if the announced count
announces them. -/
theorem ack_agrees_iff {outputDir : Path} {pin : UInt32} {onProgress : Bool}
    {disk : List Path} {events : List Event} {event : Event} {w w' : Endpoint}
    {hs : Handshake} {pc : HandshakePc} {frame : UInt32 × List UInt8}
    (run : (machine P (recvFile outputDir pin onProgress disk)).Run events w)
    (found : w.taskAt event = some (.handshake hs pc))
    (taken : step P event w = some w') (answer : frame ∈ sent w w') (acked : IsAck frame) :
    AckAgrees w frame.2 ↔ AnnouncesBits w.currentManifest hs.totalChunks := by
  have hanswer := answer_of_step (receiver_run run) (step_cases taken).2
  generalize sent w w' = frames at hanswer answer
  cases hanswer with
  | silent => cases answer
  | rejected _ _ _ =>
      obtain rfl := List.mem_singleton.mp answer
      cases acked
  | acked found' _ written =>
      obtain rfl := List.mem_singleton.mp answer
      cases found.symm.trans found'
      exact ackAgrees_iff written

theorem ack_agrees_with_second_handshake :
    AckAgrees (KnownAnswers.session.reached (secondHandshakeEvents 1)) (ackMessage 1 [0]) := by
  have htaken : step KnownAnswers.platform (.task 1 true)
      (KnownAnswers.session.reached (secondHandshakeEvents 1)) =
        some (KnownAnswers.session.reached (secondHandshakeEvents 1 ++ [.task 1 true])) := by
    decide +kernel
  have hfound : (KnownAnswers.session.reached (secondHandshakeEvents 1)).taskAt (.task 1 true) =
      some (.handshake (Handshake.decode (KnownAnswers.handshakeMessage 123456 1 1)) .enter) := by
    decide +kernel
  have hanswer : ((0 : UInt32), ackMessage 1 [0]) ∈ sent
      (KnownAnswers.session.reached (secondHandshakeEvents 1))
      (KnownAnswers.session.reached (secondHandshakeEvents 1 ++ [.task 1 true])) := by
    decide +kernel
  exact (ack_agrees_iff (Machine.run_reached (by decide +kernel)) hfound htaken hanswer
    (by decide +kernel)).mpr (by decide +kernel)

/-- The second handshake announces nine chunks: the acknowledgement announces nine bits
and carries a field of eight. -/
theorem ack_disagrees_with_second_handshake :
    ∃ w w', KnownAnswers.session.RunUnder OneAtATime (secondHandshakeEvents 9) w ∧
      Initialised w ∧
      step KnownAnswers.platform (.task 1 true) w = some w' ∧
      sent w w' = [(0, ackMessage 9 [0])] ∧ ¬ AckAgrees w (ackMessage 9 [0]) := by
  refine ⟨_, KnownAnswers.session.reached (secondHandshakeEvents 9 ++ [.task 1 true]),
    Machine.runUnder_reached (by decide +kernel), by decide +kernel, by decide +kernel,
    by decide +kernel, fun hagrees => ?_⟩
  have hlength := hagrees.1
  revert hlength
  decide +kernel

end Endpoint

end Sxaint.Net
