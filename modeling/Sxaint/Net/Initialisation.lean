/-
# Initialisation of a receiver

What is built when an accepted handshake initialises the session. The section under
the lock only publishes the announced number of chunks; key, manifest, file and view
are built after it, step by step and outside the lock. The stages below say what each
step can rely on. They hold in every run in which no handshake is accepted while
another one is being initialised, which the lock does not ensure when a handshake
announces no chunks.
-/

import Sxaint.Net.Receiver

namespace Sxaint.Net

open Sxaint.Core Transition

/-- Whether a task is initialising the session for a handshake it has accepted. -/
def Task.initialising : Task → Bool
  | .handshake _ pc => pc.inProgress
  | _ => false

/-- Whether a task has the session to itself: its handshake is being initialised, or
it has been and announced chunks, so that no other handshake is accepted any more. -/
def Task.holds : Task → Bool
  | .handshake hs pc =>
    pc.inProgress || ((pc = .accepted ∨ pc = .threw) && hs.totalChunks != 0)
  | _ => false

namespace Endpoint

variable {P : Platform}

/-- Handshakes are accepted one at a time: none is accepted while the initialisation
of another one is running. -/
def OneAtATime (w : Endpoint) (event : Event) : Prop :=
  ∀ hs ∈ w.entering event, w.expectedChunks = 0 → hs.pin = w.expectedPin →
    ∀ task ∈ w.tasks, task.initialising = false

instance (w : Endpoint) (event : Event) : Decidable (OneAtATime w event) :=
  inferInstanceAs (Decidable (∀ hs ∈ w.entering event, _))

/-- A manifest without chunks. -/
structure Blank (w : Endpoint) : Prop where
  totalChunks : w.currentManifest.totalChunks = 0
  bits : w.currentManifest.completedChunks.length = 0

/-- The key is the one of the receiver's pin. -/
def Keyed (P : Platform) (w : Endpoint) : Prop :=
  w.aesKey = Crypto.deriveKey P.ssl w.expectedPin

/-- The scalar fields of the manifest are those of a handshake. -/
structure Described (hs : Handshake) (w : Endpoint) : Prop where
  totalChunks : w.currentManifest.totalChunks = hs.totalChunks
  fileSize : w.currentManifest.fileSize = hs.fileSize

/-- The manifest is the one of a handshake, with a bit for each chunk. -/
structure Allotted (hs : Handshake) (w : Endpoint) : Prop extends Described hs w where
  bits : w.currentManifest.completedChunks.length = hs.totalChunks.toNat

/-- A span is the whole mapped view, of a given size. -/
structure Covers (span : Span) (size : ℕ) (w : Endpoint) : Prop where
  serial : w.fileMapper.map Mapping.serial = some span.mapping
  mapped : w.fileMapper.map (·.bytes.length) = some size
  offset : span.offset = 0
  size : span.size = size

/-- What an accepted handshake has built when its task is at some point. -/
def Stage (P : Platform) (hs : Handshake) (w : Endpoint) : HandshakePc → Prop
  | .enter => True
  | .prepare => Blank w
  | .convert => Keyed P w ∧ Blank w
  | .rename _ _ _ _ => Keyed P w ∧ Blank w
  | .describe _ => Keyed P w ∧ Blank w
  | .allot _ => Keyed P w ∧ Described hs w ∧ w.currentManifest.completedChunks.length = 0
  | .resetCount _ => Keyed P w ∧ Allotted hs w
  | .preallocate _ => Keyed P w ∧ Allotted hs w
  | .mapWrite _ => Keyed P w ∧ Allotted hs w
  | .publish view => Keyed P w ∧ Allotted hs w ∧ Covers view hs.fileSize.toNat w
  | .acknowledge => Keyed P w ∧ Allotted hs w ∧ Covers w.writeView hs.fileSize.toNat w
  | .answered => True
  | .accepted => Keyed P w ∧ Allotted hs w ∧ Covers w.writeView hs.fileSize.toNat w
  | .threw => Blank w ∨ Allotted hs w

/-- The invariant of runs that accept handshakes one at a time. -/
structure Exclusive (P : Platform) (w : Endpoint) : Prop where
  single : Pool.Single Task.holds w.tasks
  expected : ∀ hs pc, Task.handshake hs pc ∈ w.tasks → (Task.handshake hs pc).holds = true →
    w.expectedChunks = hs.totalChunks
  stage : ∀ hs pc, Task.handshake hs pc ∈ w.tasks → (Task.handshake hs pc).holds = true →
    Stage P hs w pc
  free : (∀ task ∈ w.tasks, task.holds = false) → w.expectedChunks = 0 ∧ Blank w

theorem holds_of_inProgress {hs : Handshake} {pc : HandshakePc} (running : pc.inProgress = true) :
    (Task.handshake hs pc).holds = true := by
  simp [Task.holds, running]

/-- Two states that agree on what an initialisation builds. -/
structure StageFrame (w v : Endpoint) : Prop where
  expectedPin : v.expectedPin = w.expectedPin
  aesKey : v.aesKey = w.aesKey
  writeView : v.writeView = w.writeView
  totalChunks : v.currentManifest.totalChunks = w.currentManifest.totalChunks
  fileSize : v.currentManifest.fileSize = w.currentManifest.fileSize
  bitCount : v.currentManifest.completedChunks.length = w.currentManifest.completedChunks.length
  serial : v.fileMapper.map Mapping.serial = w.fileMapper.map Mapping.serial
  viewSize : v.fileMapper.map (·.bytes.length) = w.fileMapper.map (·.bytes.length)

theorem stageFrame_of_chunkFrame {w v : Endpoint} (frame : ChunkFrame w v) : StageFrame w v :=
  { frame with }

theorem blank_of_stageFrame {w v : Endpoint} (frame : StageFrame w v) (blank : Blank w) :
    Blank v :=
  ⟨frame.totalChunks.trans blank.totalChunks, frame.bitCount.trans blank.bits⟩

theorem allotted_of_stageFrame {hs : Handshake} {w v : Endpoint} (frame : StageFrame w v)
    (allotted : Allotted hs w) : Allotted hs v :=
  ⟨⟨frame.totalChunks.trans allotted.totalChunks, frame.fileSize.trans allotted.fileSize⟩,
    frame.bitCount.trans allotted.bits⟩

theorem keyed_of_stageFrame {w v : Endpoint} (frame : StageFrame w v) (keyed : Keyed P w) :
    Keyed P v := by
  rw [Keyed, frame.aesKey, frame.expectedPin]
  exact keyed

theorem covers_of_stageFrame {span : Span} {size : ℕ} {w v : Endpoint} (frame : StageFrame w v)
    (covers : Covers span size w) : Covers span size v :=
  ⟨frame.serial.trans covers.serial, frame.viewSize.trans covers.mapped, covers.offset,
    covers.size⟩

/-- A stage is about the members of its frame only. -/
theorem stage_of_stageFrame {hs : Handshake} {pc : HandshakePc} {w v : Endpoint}
    (frame : StageFrame w v) (stage : Stage P hs w pc) : Stage P hs v pc := by
  have hkey := keyed_of_stageFrame (P := P) frame
  have hblank := blank_of_stageFrame frame
  have hallotted : Allotted hs w → Allotted hs v := allotted_of_stageFrame frame
  cases pc with
  | enter | answered => trivial
  | prepare => exact hblank stage
  | convert | rename _ _ _ _ | describe _ => exact stage.imp hkey hblank
  | allot _ =>
      exact ⟨hkey stage.1, ⟨frame.totalChunks.trans stage.2.1.totalChunks,
        frame.fileSize.trans stage.2.1.fileSize⟩, frame.bitCount.trans stage.2.2⟩
  | resetCount _ | preallocate _ | mapWrite _ => exact stage.imp hkey hallotted
  | publish view =>
      exact ⟨hkey stage.1, hallotted stage.2.1, covers_of_stageFrame frame stage.2.2⟩
  | acknowledge | accepted =>
      refine ⟨hkey stage.1, hallotted stage.2.1, ?_⟩
      rw [frame.writeView]
      exact covers_of_stageFrame frame stage.2.2
  | threw => exact stage.imp hblank hallotted

/-- Replacing the tasks changes nothing that was built. -/
theorem stageFrame_tasks (w : Endpoint) (tasks : List Task) :
    StageFrame w { w with tasks := tasks } := by
  constructor <;> rfl

/-- A finished initialisation of no chunks has left a manifest without chunks. -/
theorem blank_of_stage {hs : Handshake} {pc : HandshakePc} {w : Endpoint}
    (finished : pc = .accepted ∨ pc = .threw) (empty : hs.totalChunks = 0)
    (stage : Stage P hs w pc) : Blank w := by
  have hblank (h : Allotted hs w) : Blank w :=
    ⟨h.totalChunks.trans empty, by rw [h.bits, empty]; rfl⟩
  rcases finished with rfl | rfl
  · exact hblank stage.2.1
  · exact stage.elim id hblank

/-- A step of the task that has the session, to the next stage. -/
private theorem exclusive_advance {index : ℕ} {hs : Handshake} {pc next : HandshakePc}
    {w v : Endpoint} (inv : Exclusive P w) (found : w.tasks[index]? = some (.handshake hs pc))
    (running : pc.inProgress = true)
    (on : next.inProgress = true ∨ next = .accepted ∨ next = .threw)
    (tasks : v.tasks = w.tasks) (expected : v.expectedChunks = w.expectedChunks)
    (stage : Stage P hs v next) :
    Exclusive P { v with tasks := v.tasks.set index (.handshake hs next) } := by
  have hholds : (Task.handshake hs pc).holds = true := holds_of_inProgress running
  have hexpected := inv.expected hs pc (List.mem_of_getElem? found) hholds
  have hstage := stage_of_stageFrame (P := P) (stageFrame_tasks v
    (v.tasks.set index (.handshake hs next))) stage
  have hnew : ∀ other ∈ w.tasks.set index (.handshake hs next), other.holds = true →
      other = .handshake hs next :=
    Pool.forall_set_of_single inv.single found hholds fun _ => rfl
  constructor
  · simp only [tasks]
    exact Pool.single_set inv.single found fun _ => hholds
  · intro other pc' hmem hother
    simp only [tasks] at hmem
    cases hnew _ hmem hother
    exact expected.trans hexpected
  · intro other pc' hmem hother
    simp only [tasks] at hmem
    cases hnew _ hmem hother
    exact hstage
  · intro hfree
    simp only [tasks] at hfree
    have hidle : (Task.handshake hs next).holds = false :=
      hfree _ (List.mem_set (List.getElem?_eq_some_iff.mp found).1 _)
    rcases on with hon | hdone
    · rw [holds_of_inProgress hon] at hidle
      cases hidle
    · have hzero : hs.totalChunks = 0 := by
        rcases hdone with rfl | rfl <;> simpa [Task.holds, HandshakePc.inProgress] using hidle
      exact ⟨expected.trans (hexpected.trans hzero), blank_of_stage hdone hzero hstage⟩

/-- A step after which the same tasks have the session and what was built is the same. -/
private theorem exclusive_of_same {w v : Endpoint} (inv : Exclusive P w)
    (single : Pool.Single Task.holds v.tasks)
    (same : ∀ task, task.holds = true → (task ∈ v.tasks ↔ task ∈ w.tasks))
    (expected : v.expectedChunks = w.expectedChunks) (frame : StageFrame w v) :
    Exclusive P v := by
  refine ⟨single, fun hs pc hmem hholds => ?_, fun hs pc hmem hholds => ?_, fun hfree => ?_⟩
  · exact expected.trans (inv.expected hs pc ((same _ hholds).mp hmem) hholds)
  · exact stage_of_stageFrame frame (inv.stage hs pc ((same _ hholds).mp hmem) hholds)
  · have hbefore : ∀ task ∈ w.tasks, task.holds = false := fun task hmem =>
      Bool.eq_false_iff.mpr fun hholds => by
        have := hfree task ((same _ hholds).mpr hmem)
        rw [hholds] at this
        cases this
    exact (inv.free hbefore).imp expected.trans (blank_of_stageFrame frame)

/-- A step of a task that neither has nor gets the session. -/
private theorem exclusive_idle {index : ℕ} {old new : Task} {w v : Endpoint}
    (inv : Exclusive P w) (found : w.tasks[index]? = some old) (out : old.holds = false)
    (stays : new.holds = false) (tasks : v.tasks = w.tasks)
    (expected : v.expectedChunks = w.expectedChunks) (frame : StageFrame w v) :
    Exclusive P { v with tasks := v.tasks.set index new } := by
  refine exclusive_of_same inv ?_ (fun task hholds => ?_) expected { frame with }
  · simp only [tasks]
    refine Pool.single_set inv.single found fun hnew => ?_
    rw [stays] at hnew
    cases hnew
  · simp only [tasks]
    constructor
    · intro hmem
      rcases List.mem_or_eq_of_mem_set hmem with hbefore | rfl
      · exact hbefore
      · rw [stays] at hholds
        cases hholds
    · intro hmem
      apply Pool.mem_set_of_ne found hmem
      rintro rfl
      rw [out] at hholds
      cases hholds

/-- A task that does not have the session is queued. -/
private theorem exclusive_submit {new : Task} {w : Endpoint} (inv : Exclusive P w)
    (stays : new.holds = false) : Exclusive P (w.submit new) := by
  refine exclusive_of_same inv (Pool.single_submit inv.single stays) (fun task hholds => ?_) rfl
    (stageFrame_tasks w _)
  have hne : task ≠ new := by
    rintro rfl
    rw [stays] at hholds
    cases hholds
  simp [submit, hne]

/-- A handshake that is accepted when no other one is being initialised finds the
session free and has it from then on. -/
private theorem exclusive_admit {index : ℕ} {hs : Handshake} {w : Endpoint}
    (inv : Exclusive P w) (found : w.tasks[index]? = some (.handshake hs .enter))
    (unlatched : w.expectedChunks = 0)
    (alone : ∀ task ∈ w.tasks, task.initialising = false) :
    Exclusive P
      { w with
        expectedChunks := hs.totalChunks
        tasks := w.tasks.set index (.handshake hs .prepare) } := by
  have hfree : ∀ task ∈ w.tasks, task.holds = false := by
    intro task hmem
    refine Bool.eq_false_iff.mpr fun hholds => ?_
    cases task with
    | handshake other pc =>
        have hzero := (inv.expected other pc hmem hholds).symm.trans unlatched
        have hidle : pc.inProgress = false := alone _ hmem
        simp [Task.holds, hidle, hzero] at hholds
    | recvChunk _ _ _ | sendChunk _ _ => cases hholds
  have hnew : ∀ hs' pc, Task.handshake hs' pc ∈ w.tasks.set index (.handshake hs .prepare) →
      (Task.handshake hs' pc).holds = true → hs' = hs ∧ pc = .prepare := by
    intro hs' pc hmem hholds
    rcases List.mem_or_eq_of_mem_set hmem with hold | hnew
    · rw [hfree _ hold] at hholds
      cases hholds
    · cases hnew
      exact ⟨rfl, rfl⟩
  refine ⟨Pool.single_set_of_none hfree _ _, fun hs' pc hmem hholds => ?_,
    fun hs' pc hmem hholds => ?_, fun hnone => ?_⟩
  · rw [(hnew hs' pc hmem hholds).1]
  · obtain ⟨rfl, rfl⟩ := hnew hs' pc hmem hholds
    exact ⟨(inv.free hfree).2.totalChunks, (inv.free hfree).2.bits⟩
  · have hidle := hnone _ (List.mem_set (List.getElem?_eq_some_iff.mp found).1 _)
    cases hidle

/-- A step of a receiver that accepts no handshake during another initialisation. -/
theorem exclusive_step {pin : UInt32} {outputDir : Path} {event : Event} {w w' : Endpoint}
    (receiver : Receiver pin outputDir w) (inv : Exclusive P w) (ok : OneAtATime w event)
    (taken : Step P w event w') : Exclusive P w' := by
  have hsame {v : Endpoint} (tasks : v.tasks = w.tasks)
      (expected : v.expectedChunks = w.expectedChunks) (frame : StageFrame w v) :
      Exclusive P v :=
    exclusive_of_same inv (tasks ▸ inv.single) (fun task _ => by rw [tasks]) expected frame
  cases taken with
  | deliver idle received =>
      cases received with
      | handshake carried => exact exclusive_submit inv rfl
      | chunk other carried => exact exclusive_submit inv rfl
      | _ => exact hsame rfl rfl (by constructor <;> rfl)
  | network => exact hsame rfl rfl (by constructor <;> rfl)
  | @handshake index _ hs pc next v found taken =>
      have hframe := taskFrame_of_handshakeStep taken
      have hexpected (running : pc.inProgress = true) : w.expectedChunks = hs.totalChunks :=
        inv.expected hs pc (List.mem_of_getElem? found) (holds_of_inProgress running)
      have hstage (running : pc.inProgress = true) : Stage P hs w pc :=
        inv.stage hs pc (List.mem_of_getElem? found) (holds_of_inProgress running)
      cases taken with
      | resumed _ _ | rejected _ _ =>
          exact exclusive_idle inv found rfl rfl rfl rfl (by constructor <;> rfl)
      | admitted unlatched right =>
          have hadmit := exclusive_admit inv found unlatched
            (ok hs (mem_entering.mpr found) unlatched right)
          exact hadmit
      | prepared terminated =>
          have hblank := hstage rfl
          exact exclusive_advance inv found rfl (.inl rfl) rfl rfl
            ⟨rfl, hblank.totalChunks, hblank.bits⟩
      | unterminated endless =>
          have hblank := hstage rfl
          exact exclusive_advance inv found rfl (.inl rfl) rfl rfl
            ⟨hblank.totalChunks, hblank.bits⟩
      | searched searching =>
          rcases searching with rfl | ⟨_, _, _, _, rfl⟩ <;>
            exact exclusive_advance inv found rfl (.inl rfl) rfl rfl (hstage rfl)
      | named free narrow =>
          obtain ⟨hkey, hblank⟩ := hstage rfl
          exact exclusive_advance inv found rfl (.inl rfl) rfl rfl
            ⟨hkey, hblank.totalChunks, hblank.bits⟩
      | described =>
          obtain ⟨hkey, hblank⟩ := hstage rfl
          exact exclusive_advance inv found rfl (.inl rfl) rfl rfl ⟨hkey, ⟨rfl, rfl⟩, hblank.bits⟩
      | allotted =>
          obtain ⟨hkey, hdescribed, -⟩ := hstage rfl
          exact exclusive_advance inv found rfl (.inl rfl) rfl rfl
            ⟨hkey, ⟨hdescribed.totalChunks, hdescribed.fileSize⟩, List.length_replicate⟩
      | recount | created =>
          obtain ⟨hkey, hallotted⟩ := hstage rfl
          exact exclusive_advance inv found rfl (.inl rfl) rfl rfl
            ⟨hkey, ⟨hallotted.totalChunks, hallotted.fileSize⟩, hallotted.bits⟩
      | mapped =>
          obtain ⟨hkey, hallotted⟩ := hstage rfl
          exact exclusive_advance inv found rfl (.inl rfl) rfl rfl
            ⟨hkey, ⟨⟨hallotted.totalChunks, hallotted.fileSize⟩, hallotted.bits⟩,
              ⟨rfl, by simp, rfl, rfl⟩⟩
      | unmapped =>
          obtain ⟨hkey, hallotted⟩ := hstage rfl
          exact exclusive_advance inv found rfl (.inr (.inr rfl)) rfl rfl
            (.inr ⟨⟨hallotted.totalChunks, hallotted.fileSize⟩, hallotted.bits⟩)
      | published =>
          obtain ⟨hkey, hallotted, hcovers⟩ := hstage rfl
          exact exclusive_advance inv found rfl (.inl rfl) rfl rfl
            ⟨hkey, ⟨⟨hallotted.totalChunks, hallotted.fileSize⟩, hallotted.bits⟩,
              ⟨hcovers.serial, hcovers.mapped, hcovers.offset, hcovers.size⟩⟩
      | acknowledged written =>
          obtain ⟨hkey, hallotted, hcovers⟩ := hstage rfl
          exact exclusive_advance inv found rfl (.inr (.inl rfl)) rfl rfl
            ⟨hkey, ⟨⟨hallotted.totalChunks, hallotted.fileSize⟩, hallotted.bits⟩,
              ⟨hcovers.serial, hcovers.mapped, hcovers.offset, hcovers.size⟩⟩
      | packFault packing outside =>
          rcases packing with ⟨rfl, -⟩ | rfl
          · exact exclusive_idle inv found rfl rfl rfl rfl (by constructor <;> rfl)
          · have hcrash : StageFrame w w.crash := by constructor <;> rfl
            exact exclusive_advance inv found rfl (.inl rfl) rfl rfl
              (stage_of_stageFrame hcrash (hstage rfl))
      | threw throwing =>
          cases pc with
          | convert | rename _ _ _ _ =>
              exact exclusive_advance inv found rfl (.inr (.inr rfl)) rfl rfl
                (.inl (hstage rfl).2)
          | preallocate _ =>
              exact exclusive_advance inv found rfl (.inr (.inr rfl)) rfl rfl
                (.inr (hstage rfl).2)
          | _ => cases throwing
  | recvChunk found taken =>
      have hframe := chunkFrame_of_chunkStep taken
      exact exclusive_idle inv found rfl rfl hframe.tasks hframe.expectedChunks
        (stageFrame_of_chunkFrame hframe)
  | sendChunk found taken => exact (receiver.tasks _ (List.mem_of_getElem? found)).elim
  | main taken =>
      obtain ⟨-, rfl⟩ := returned_of_mainStep receiver.main taken
      exact hsame rfl rfl (by constructor <;> rfl)

theorem exclusive_recvFile (outputDir : Path) (pin : UInt32) (onProgress : Bool)
    (disk : List Path) : Exclusive P (recvFile outputDir pin onProgress disk) := by
  refine ⟨fun i j first second h => ?_, fun hs pc h => ?_, fun hs pc h => ?_,
    fun _ => ⟨rfl, rfl, rfl⟩⟩
  · simp [recvFile] at h
  · simp [recvFile] at h
  · simp [recvFile] at h

/-- Every run that accepts handshakes one at a time keeps the invariant. -/
theorem exclusive_run {outputDir : Path} {pin : UInt32} {onProgress : Bool} {disk : List Path}
    {allowed : Endpoint → Event → Prop} (serial : ∀ w event, allowed w event → OneAtATime w event)
    {events : List Event} {w : Endpoint}
    (run : (machine P (recvFile outputDir pin onProgress disk)).RunUnder allowed events w) :
    Exclusive P w := by
  induction run with
  | start => exact exclusive_recvFile outputDir pin onProgress disk
  | snoc prior ok taken ih =>
      exact exclusive_step (receiver_run prior) ih (serial _ _ ok) (step_cases taken).2

/-- The completion bits are not allotted, or there is one for each expected chunk. -/
theorem bits_of_exclusive {w : Endpoint} (inv : Exclusive P w) :
    w.currentManifest.completedChunks = [] ∨
      (w.currentManifest.totalChunks = w.expectedChunks ∧
        w.currentManifest.completedChunks.length = w.expectedChunks.toNat) := by
  by_cases hheld : ∃ task ∈ w.tasks, task.holds = true
  · obtain ⟨task, hmem, hholds⟩ := hheld
    cases task with
    | handshake hs pc =>
        have hexpected := inv.expected hs pc hmem hholds
        have hstage := inv.stage hs pc hmem hholds
        have hallotted (h : Allotted hs w) :
            w.currentManifest.totalChunks = w.expectedChunks ∧
              w.currentManifest.completedChunks.length = w.expectedChunks.toNat :=
          ⟨h.totalChunks.trans hexpected.symm, by rw [h.bits, hexpected]⟩
        cases pc with
        | enter | answered => cases hholds
        | prepare => exact .inl (List.eq_nil_of_length_eq_zero hstage.bits)
        | convert | rename _ _ _ _ | describe _ =>
            exact .inl (List.eq_nil_of_length_eq_zero hstage.2.bits)
        | allot _ => exact .inl (List.eq_nil_of_length_eq_zero hstage.2.2)
        | resetCount _ | preallocate _ | mapWrite _ => exact .inr (hallotted hstage.2)
        | publish _ | acknowledge | accepted => exact .inr (hallotted hstage.2.1)
        | threw =>
            exact hstage.imp (fun h => List.eq_nil_of_length_eq_zero h.bits) hallotted
    | recvChunk _ _ _ | sendChunk _ _ => cases hholds
  · have hnone : ∀ task ∈ w.tasks, task.holds = false := fun task hmem =>
      Bool.eq_false_iff.mpr fun h => hheld ⟨task, hmem, h⟩
    exact .inl (List.eq_nil_of_length_eq_zero (inv.free hnone).2.bits)

end Endpoint

end Sxaint.Net
