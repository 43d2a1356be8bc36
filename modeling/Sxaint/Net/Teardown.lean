/-
# Destroying a session

The members of a `Session` are destroyed in the reverse order of their declaration, once `sendFile`
or `recvFile` is left. The pool is joined by the third destructor from the end and the network
thread by the one after it, so tasks and messages go on while members that they use are gone
already. Which members a task can still come to use follows from where it is; as long as none of
these is destroyed, and no message starts anything that uses a destroyed one, the teardown is safe.
-/

import Mathlib.Logic.Relation
import Sxaint.Net.Submission

namespace Sxaint.Net

open Sxaint.Core Transition

/-- The members of a `Session`. -/
inductive Member
  | aesKey
  | transport
  | threadPool
  | fileMapper
  | outputDir
  | currentFilename
  | writeView
  | handshakeRejected
  | expectedPin
  | chunksRecv
  | expectedChunks
  | transComplete
  | chunksSent
  | handshakeAcked
  | resumeBitfield
  | currentManifest
  | manifestMutex
  | metrics
  | onProgress
  deriving DecidableEq, Repr

/-- The members in the order of their declaration. -/
def Member.all : List Member :=
  [.aesKey, .transport, .threadPool, .fileMapper, .outputDir, .currentFilename, .writeView,
    .handshakeRejected, .expectedPin, .chunksRecv, .expectedChunks, .transComplete, .chunksSent,
    .handshakeAcked, .resumeBitfield, .currentManifest, .manifestMutex, .metrics, .onProgress]

theorem Member.mem_all (m : Member) : m ∈ Member.all := by
  cases m <;> decide

namespace Endpoint

variable (P : Platform)

/-- The members that the next step of `processHandshake` uses. -/
def handshakeUses (hs : Handshake) (w : Endpoint) : HandshakePc → List Member
  | .enter =>
    if w.expectedChunks ≠ 0 then [.manifestMutex, .expectedChunks, .currentManifest, .transport]
    else if hs.pin ≠ w.expectedPin then [.manifestMutex, .expectedChunks, .expectedPin, .transport]
    else [.manifestMutex, .expectedChunks, .expectedPin]
  | .prepare => [.aesKey, .expectedPin, .currentFilename, .metrics]
  | .convert => [.currentFilename, .outputDir]
  | .rename _ _ _ target =>
    if fileExists P w target then [.outputDir] else [.currentFilename]
  | .describe _ => [.currentManifest, .currentFilename]
  | .allot _ => [.currentManifest]
  | .resetCount _ => [.chunksRecv]
  -- the name is logged before the file is created
  | .preallocate _ => [.currentFilename]
  | .mapWrite _ => [.fileMapper]
  | .publish _ => [.writeView]
  | .acknowledge => [.currentManifest, .transport]
  | .answered => []
  | .accepted => []
  | .threw => []

/-- The members that the next step of `processChunk` uses. The target of a chunk lies in what
`file_mapper_` has mapped. -/
def chunkUses (w : Endpoint) : ChunkPc → List Member
  | .enter => [.writeView]
  | .decrypt _ => [.aesKey]
  | .decompress _ _ => [.fileMapper]
  | .check _ => [.fileMapper]
  | .mark => [.manifestMutex, .currentManifest]
  | .addBytes => [.metrics]
  | .count => [.chunksRecv]
  | .report _ => if w.metrics.isSome then [.metrics, .onProgress] else [.metrics]
  | .compare received =>
    if received = w.expectedChunks then [.expectedChunks, .transComplete] else [.expectedChunks]
  | .dropped => []
  | .stored _ _ => []

/-- The members that the next step of a chunk task of the sender uses. -/
def sendUses : SendPc → List Member
  | .compress => [.fileMapper]
  | .encrypt _ => [.aesKey]
  | .send _ => [.transport]
  | .count => [.chunksSent]
  | .addBytes => [.metrics]
  | .sent => []
  | .failed => []

/-- The members that the next step of a task uses. -/
def taskUses (w : Endpoint) : Task → List Member
  | .handshake hs pc => handshakeUses P hs w pc
  | .recvChunk _ _ pc => chunkUses w pc
  | .sendChunk _ pc => sendUses pc

/-- The task that `handleRecv` queues for a message. -/
def queued? (data : List UInt8) : Option Task :=
  ((handshakeIn data).map fun hs => .handshake hs .enter).or
    ((chunkIn data).map fun message => .recvChunk message.1 message.2 .enter)

/-- The members that `handleRecv` uses on a message. -/
def handlerUses (w : Endpoint) (data : List UInt8) : List Member :=
  if (queued? data).isSome then [.threadPool]
  else
    match messageKind data with
    | some .handshakeAck =>
      if w.handshakeAcked = true ∨ data.length < HandshakeAck.size then [.handshakeAcked]
      else [.handshakeAcked, .resumeBitfield]
    | some .handshakeReject => [.handshakeRejected, .handshakeAcked]
    | _ => []

end Endpoint

/-- A session that is being destroyed. -/
structure Teardown where
  session : Endpoint
  /-- `sendFile` or `recvFile` was left. -/
  left : Bool := false
  /-- The members that are not destroyed, in the order of their declaration. -/
  alive : List Member := Member.all
  /-- `shutdown_` of the pool. -/
  shutdown : Bool := false
  /-- The message that the network thread is in `handleRecv` with. -/
  handling : Option (List UInt8) := none
  /-- A destroyed member was used. -/
  misused : Bool := false
  /-- The exception for a stopped pool has left the network thread. -/
  escaped : Bool := false
  deriving DecidableEq, Repr

/-- A step of one of the threads of a session. -/
inductive TeardownEvent
  | /-- `handleRecv` is called. -/
    arrive (data : List UInt8)
  | /-- `handleRecv` handles its message. -/
    handle
  | /-- The network thread publishes the answer it has stored. -/
    publish
  | /-- A task takes its next step. -/
    task (index : ℕ) (ok : Bool)
  | /-- The thread of `sendFile` or `recvFile` takes its next step there. -/
    main (strategy : Strategy) (waitSnd : UInt32 → Int)
  | /-- It returns, or is left by an exception. -/
    leave (thrown : Bool)
  | /-- The destructor of the pool sets `shutdown_`. -/
    shutdown
  | /-- The next member is destroyed. -/
    destroy

/-- A task that no worker has started. -/
def Task.isFresh : Task → Bool
  | .handshake _ .enter => true
  | .recvChunk _ _ .enter => true
  | .sendChunk _ .compress => true
  | _ => false

/-- A task that has returned. -/
def Task.isDone : Task → Bool
  | .handshake _ .answered => true
  | .handshake _ .accepted => true
  | .handshake _ .threw => true
  | .recvChunk _ _ .dropped => true
  | .recvChunk _ _ (.stored _ _) => true
  | .sendChunk _ .sent => true
  | .sendChunk _ .failed => true
  | _ => false

namespace Teardown

/-- A step that uses some members. -/
def touch (s : Teardown) (members : List Member) (next : Option Teardown) : Option Teardown :=
  if ∀ m ∈ members, m ∈ s.alive then next else some { s with misused := true }

/-- Whether the destructor of a member can end: the pool's joins its workers, which finish what
they run, and the transport's joins the network thread. -/
def destructible (s : Teardown) : Member → Prop
  | .threadPool =>
    s.shutdown = true ∧ ∀ task ∈ s.session.tasks, task.isFresh = true ∨ task.isDone = true
  | .transport => s.session.net = .idle ∧ s.handling = none
  | _ => True

instance (s : Teardown) (m : Member) : Decidable (s.destructible m) := by
  cases m with
  | threadPool => exact inferInstanceAs (Decidable (_ ∧ ∀ task ∈ s.session.tasks, _))
  | transport => exact inferInstanceAs (Decidable (_ ∧ _))
  | _ => exact instDecidableTrue

/-- One step. -/
def step (P : Platform) (event : TeardownEvent) (s : Teardown) : Option Teardown :=
  if s.misused ∨ s.escaped then none
  else
    match event with
    | .arrive data =>
      -- the network thread runs until the transport is destroyed
      if .transport ∈ s.alive ∧ s.session.net = .idle ∧ s.handling = none then
        some { s with handling := some data }
      else none
    | .handle =>
      match s.handling with
      | none => none
      | some data =>
        s.touch (s.session.handlerUses data)
          (if (Endpoint.queued? data).isSome ∧ s.shutdown then some { s with escaped := true }
          else
            (Endpoint.step P (.deliver data) s.session).map fun session =>
              { s with session := session, handling := none })
    | .publish =>
      if s.session.net = .publishAcked then
        s.touch [.handshakeAcked]
          ((Endpoint.step P .network s.session).map fun session => { s with session := session })
      else none
    | .task index ok =>
      match s.session.tasks[index]? with
      | none => none
      | some task =>
        if .threadPool ∈ s.alive then
          s.touch (Endpoint.taskUses P s.session task)
            ((Endpoint.step P (.task index ok) s.session).map fun session =>
              { s with session := session })
        else none
    | .main strategy waitSnd =>
      if s.left then none
      else
        (Endpoint.step P (.main strategy waitSnd) s.session).map fun session =>
          { s with session := session }
    | .leave thrown =>
      if s.left = false ∧ (s.session.main = .returned ∨ thrown = true) then
        some { s with left := true }
      else none
    | .shutdown =>
      if s.left = true ∧ s.alive.getLast? = some .threadPool then
        some { s with shutdown := true }
      else none
    | .destroy =>
      match s.alive.getLast? with
      | none => none
      | some m =>
        if s.left = true ∧ s.destructible m then some { s with alive := s.alive.dropLast }
        else none

/-- The machine of a session. -/
def machine (P : Platform) (start : Endpoint) : Machine Teardown TeardownEvent where
  init := { session := start }
  step := step P

/-! ## What the steps write -/

/-- An answer queues no task. -/
theorem queued?_of_answer {data : List UInt8}
    (kind : messageKind data = some .handshakeReject ∨ messageKind data = some .handshakeAck) :
    Endpoint.queued? data = none := by
  rw [Endpoint.queued?, Endpoint.handshakeIn, Endpoint.chunkIn]
  rcases kind with h | h
  · simp [show data.head?.bind MessageType.ofByte = _ from h]
  · simp [show data.head?.bind MessageType.ofByte = _ from h]

/-- A member has the same value in two states of a session; a mutex has none. -/
def Same (w v : Endpoint) : Member → Prop
  | .aesKey => v.aesKey = w.aesKey
  | .transport => v.outbox = w.outbox
  | .threadPool => v.tasks = w.tasks
  | .fileMapper => v.fileMapper = w.fileMapper
  | .outputDir => v.outputDir = w.outputDir
  | .currentFilename => v.currentFilename = w.currentFilename
  | .writeView => v.writeView = w.writeView
  | .handshakeRejected => v.handshakeRejected = w.handshakeRejected
  | .expectedPin => v.expectedPin = w.expectedPin
  | .chunksRecv => v.chunksRecv = w.chunksRecv
  | .expectedChunks => v.expectedChunks = w.expectedChunks
  | .transComplete => v.transComplete = w.transComplete
  | .chunksSent => v.chunksSent = w.chunksSent
  | .handshakeAcked => v.handshakeAcked = w.handshakeAcked
  | .resumeBitfield => v.resumeBitfield = w.resumeBitfield
  | .currentManifest => v.currentManifest = w.currentManifest
  | .manifestMutex => True
  | .metrics => v.metrics = w.metrics
  | .onProgress => v.reports = w.reports

section Same

variable {P : Platform} {w v : Endpoint} {m : Member}

theorem same_of_handshakeStep {hs : Handshake} {pc next : HandshakePc}
    (taken : Endpoint.HandshakeStep P hs w pc next v)
    (other : m ∉ Endpoint.handshakeUses P hs w pc) : Same w v m := by
  cases taken with
  | resumed latched _ =>
      rw [Endpoint.handshakeUses, if_pos latched] at other
      cases m with
      | transport => simp at other
      | _ => trivial
  | rejected unlatched wrong =>
      rw [Endpoint.handshakeUses, if_neg (not_not.mpr unlatched), if_pos wrong] at other
      cases m with
      | transport => simp at other
      | _ => trivial
  | admitted unlatched right =>
      rw [Endpoint.handshakeUses, if_neg (not_not.mpr unlatched),
        if_neg (not_not.mpr right)] at other
      cases m with
      | expectedChunks => simp at other
      | _ => trivial
  | prepared _ | unterminated _ =>
      cases m with
      | aesKey | currentFilename | metrics => simp [Endpoint.handshakeUses] at other
      | _ => trivial
  | named free _ =>
      rw [Endpoint.handshakeUses, if_neg (by simp [free])] at other
      cases m with
      | currentFilename => simp at other
      | _ => trivial
  | described | allotted =>
      cases m with
      | currentManifest => simp [Endpoint.handshakeUses] at other
      | _ => trivial
  | recount =>
      cases m with
      | chunksRecv => simp [Endpoint.handshakeUses] at other
      | _ => trivial
  | mapped | unmapped =>
      cases m with
      | fileMapper => simp [Endpoint.handshakeUses] at other
      | _ => trivial
  | published =>
      cases m with
      | writeView => simp [Endpoint.handshakeUses] at other
      | _ => trivial
  | acknowledged _ =>
      cases m with
      | transport => simp [Endpoint.handshakeUses] at other
      | _ => trivial
  | searched _ | created | packFault _ _ | threw _ => cases m <;> trivial

theorem same_of_chunkStep {header : ChunkWireHeader} {payload : List UInt8} {pc next : ChunkPc}
    (taken : Endpoint.ChunkStep P header payload w pc next v)
    (other : m ∉ Endpoint.chunkUses w pc) : Same w v m := by
  cases taken with
  | written _ _ =>
      cases m with
      | fileMapper => simp [Endpoint.chunkUses] at other
      | _ => trivial
  | marked _ =>
      cases m with
      | currentManifest => simp [Endpoint.chunkUses] at other
      | _ => trivial
  | metered =>
      cases m with
      | metrics => simp [Endpoint.chunkUses] at other
      | _ => trivial
  | counted =>
      cases m with
      | chunksRecv => simp [Endpoint.chunkUses] at other
      | _ => trivial
  | reported =>
      rw [Endpoint.reportProgress_eq]
      cases m with
      | onProgress =>
          show w.reportProgress.reports = w.reports
          rw [Endpoint.chunkUses] at other
          split at other
          · simp at other
          · rename_i hnone
            rw [Endpoint.reportProgress, Option.not_isSome_iff_eq_none.mp hnone]
      | _ => trivial
  | completed last =>
      rw [Endpoint.chunkUses, if_pos last] at other
      cases m with
      | transComplete => simp at other
      | _ => trivial
  | targeted _ _ | decrypted _ | verified _ _ | strayed _ | finished _ | dropped _ | fault _ =>
      cases m <;> trivial

theorem same_of_sendStep {job : SendJob} {pc next : SendPc}
    (taken : Endpoint.SendStep P job w pc next v) (other : m ∉ Endpoint.sendUses pc) :
    Same w v m := by
  cases taken with
  | sent =>
      cases m with
      | transport => simp [Endpoint.sendUses] at other
      | _ => trivial
  | counted =>
      cases m with
      | chunksSent => simp [Endpoint.sendUses] at other
      | _ => trivial
  | metered =>
      cases m with
      | metrics => simp [Endpoint.sendUses] at other
      | _ => trivial
  | dangling _ | compressed _ _ | encrypted _ | unencrypted | failed _ => cases m <;> trivial

/-- A step of a task writes only to members that it uses. -/
theorem same_of_runTask {task next : Task} {ok : Bool}
    (taken : Endpoint.runTask P task ok w = some (next, v))
    (other : m ∉ Endpoint.taskUses P w task) : Same w v m := by
  cases Endpoint.taskStep_of_runTask taken with
  | handshake hstep => exact same_of_handshakeStep hstep other
  | recvChunk hstep => exact same_of_chunkStep hstep other
  | sendChunk hstep => exact same_of_sendStep hstep other

/-- So does the handler of a message. -/
theorem same_of_handleRecv {data : List UInt8} (other : m ∉ w.handlerUses data) :
    Same w (Endpoint.handleRecv data w) m := by
  have hqueue {task : Task} (queued : (Endpoint.queued? data).isSome = true) :
      Same w (w.submit task) m := by
    rw [Endpoint.handlerUses, if_pos queued] at other
    cases m with
    | threadPool => simp at other
    | _ => trivial
  have hsame : Same w w m := by
    cases m <;> trivial
  have hcrash : Same w w.crash m := by
    cases m <;> trivial
  cases hkind : messageKind data with
  | none =>
      cases data with
      | nil => exact hsame
      | cons type rest =>
          rw [Endpoint.handleRecv, show MessageType.ofByte type = _ from hkind]
          exact hsame
  | some kind =>
      cases kind with
      | handshakeReject =>
          rw [Endpoint.handlerUses, queued?_of_answer (.inl hkind), hkind] at other
          rw [Endpoint.handleRecv_of_rejection hkind]
          cases m with
          | handshakeRejected => simp at other
          | _ => trivial
      | handshakeAck =>
          rw [Endpoint.handlerUses, queued?_of_answer (.inr hkind), hkind] at other
          rw [Endpoint.handleRecv_of_acknowledgement hkind, Endpoint.processHandshakeACk]
          split
          · exact hsame
          · rename_i hunacked
            split
            · exact hsame
            · rename_i hwhole
              dsimp only
              split
              · exact hcrash
              · cases m with
                | resumeBitfield => simp [hunacked, hwhole] at other
                | _ => trivial
      | handshake =>
          cases data with
          | nil => exact hsame
          | cons type rest =>
              rw [Endpoint.handleRecv, show MessageType.ofByte type = _ from hkind]
              dsimp only
              split
              · rename_i hwhole
                apply hqueue
                rw [Endpoint.queued?, Endpoint.handshakeIn, if_pos ⟨hkind, hwhole⟩]
                rfl
              · exact hsame
      | chunkData =>
          cases data with
          | nil => exact hsame
          | cons type rest =>
              rw [Endpoint.handleRecv, show MessageType.ofByte type = _ from hkind]
              dsimp only
              split
              · split
                · exact hsame
                · rename_i hwhole
                  apply hqueue
                  rw [Endpoint.queued?, Endpoint.chunkIn, if_pos ⟨hkind, not_lt.mp hwhole⟩]
                  simp
              · exact hsame

end Same

/-! ## What a task can come to use -/

/-- A task after one more step of it. -/
def Next (P : Platform) (task later : Task) : Prop :=
  ∃ ok w v, Endpoint.runTask P task ok w = some (later, v)

/-- A task can come to use a member, from where it is. -/
def CanUse (P : Platform) (task : Task) (m : Member) : Prop :=
  ∃ later w, Relation.ReflTransGen (Next P) task later ∧ m ∈ Endpoint.taskUses P w later

/-- Handling a message can come to use a member, in the handler or in the task that it queues. -/
def Reaches (P : Platform) (w : Endpoint) (data : List UInt8) (m : Member) : Prop :=
  m ∈ w.handlerUses data ∨ ∃ task ∈ Endpoint.queued? data, CanUse P task m

/-- No member is destroyed that a task, a message or an answer can still come to use, and no
message starts what can come to use a destroyed one or the stopped pool. -/
def Quiet (P : Platform) (s : Teardown) : TeardownEvent → Prop
  | .arrive data =>
    (∀ m, Reaches P s.session data m → m ∈ s.alive) ∧
      (s.shutdown = true → Endpoint.queued? data = none)
  | .shutdown => ∀ data ∈ s.handling, Endpoint.queued? data = none
  | .destroy => ∀ m ∈ s.alive.getLast?,
    (.threadPool ∈ s.alive → ∀ task ∈ s.session.tasks, ¬ CanUse P task m) ∧
      (∀ data ∈ s.handling, ¬ Reaches P s.session data m) ∧
      (s.session.net = .publishAcked → m ≠ .handshakeAcked)
  | _ => True

section Quiet

variable {P : Platform}

/-- What the next step uses can be used. -/
theorem canUse_of_uses {w : Endpoint} {task : Task} {m : Member}
    (uses : m ∈ Endpoint.taskUses P w task) : CanUse P task m :=
  ⟨task, w, .refl, uses⟩

/-- What can be used after a step can be used before it. -/
theorem canUse_of_next {task later : Task} {m : Member} (next : Next P task later)
    (canUse : CanUse P later m) : CanUse P task m := by
  obtain ⟨last, w, hreach, huses⟩ := canUse
  exact ⟨last, w, .head next hreach, huses⟩

/-- A task that has returned has no step left. -/
theorem stopped_of_isDone {task : Task} (done : task.isDone = true) (ok : Bool) (w : Endpoint) :
    Endpoint.taskUses P w task = [] ∧ Endpoint.runTask P task ok w = none := by
  cases task with
  | handshake hs pc =>
      cases pc with
      | answered | accepted | threw => exact ⟨rfl, rfl⟩
      | _ => cases done
  | recvChunk header payload pc =>
      cases pc with
      | dropped | stored _ _ => exact ⟨rfl, rfl⟩
      | _ => cases done
  | sendChunk job pc =>
      cases pc with
      | sent | failed => exact ⟨rfl, rfl⟩
      | _ => cases done

theorem not_canUse_of_isDone {task : Task} {m : Member} (done : task.isDone = true) :
    ¬ CanUse P task m := by
  rintro ⟨later, w, hreach, huses⟩
  cases hreach using Relation.ReflTransGen.head_induction_on with
  | refl =>
      rw [(stopped_of_isDone done true w).1] at huses
      cases huses
  | head hnext _ =>
      obtain ⟨ok, u, v, hrun⟩ := hnext
      rw [(stopped_of_isDone done ok u).2] at hrun
      cases hrun

/-- What a message can come to use depends on the session only through the flag. -/
theorem reaches_of_acked {w v : Endpoint} (acked : v.handshakeAcked = w.handshakeAcked)
    {data : List UInt8} {m : Member} (reaches : Reaches P v data m) : Reaches P w data m := by
  rw [Reaches, Endpoint.handlerUses, acked] at reaches
  exact reaches

/-- The tasks after a message. -/
theorem mem_tasks_handleRecv {data : List UInt8} {w : Endpoint} {task : Task}
    (mem : task ∈ (Endpoint.handleRecv data w).tasks) :
    task ∈ w.tasks ∨ task ∈ Endpoint.queued? data := by
  have hreceived := Endpoint.received_handleRecv data w
  generalize Endpoint.handleRecv data w = v at mem hreceived
  cases hreceived with
  | handshake carried =>
      apply (List.mem_append.mp mem).imp_right
      intro hnew
      rw [List.mem_singleton.mp hnew, Endpoint.queued?, carried]
      rfl
  | chunk other carried =>
      apply (List.mem_append.mp mem).imp_right
      intro hnew
      rw [List.mem_singleton.mp hnew, Endpoint.queued?, other, carried]
      rfl
  | _ => exact .inl mem

/-- An answer to publish was stored by a handler that uses the flag. -/
theorem uses_of_publishing {data : List UInt8} {w : Endpoint} (idle : w.net = .idle)
    (publishing : (Endpoint.handleRecv data w).net = .publishAcked) :
    .handshakeAcked ∈ w.handlerUses data := by
  have hkind := Endpoint.messageKind_of_publishing idle publishing
  rw [Endpoint.handlerUses, queued?_of_answer hkind, Option.isSome_none, if_neg Bool.false_ne_true]
  rcases hkind with h | h
  · rw [h]
    exact List.mem_cons_of_mem _ (List.mem_singleton_self _)
  · rw [h]
    dsimp only
    split
    all_goals exact List.mem_cons_self

/-- A task that is in the pool after a step of one was there, or follows on it. -/
theorem mem_tasks_of_step {index : ℕ} {ok : Bool} {w w' : Endpoint} {task new : Task}
    (found : w.tasks[index]? = some task)
    (taken : Endpoint.step P (.task index ok) w = some w') (mem : new ∈ w'.tasks) :
    new ∈ w.tasks ∨ Next P task new := by
  obtain ⟨task', next, v, hfound, hrun, rfl⟩ := Endpoint.runTask_of_step taken
  obtain rfl := Option.some.inj (hfound.symm.trans found)
  simp only [(Endpoint.taskStep_of_runTask hrun).tasks] at mem
  apply (List.mem_or_eq_of_mem_set mem).imp_right
  rintro rfl
  exact ⟨ok, w, v, hrun⟩

/-- The threads of a session that is torn down quietly. -/
structure Covered (P : Platform) (s : Teardown) : Prop where
  safe : s.misused = false ∧ s.escaped = false
  intact : s.left = false → s.alive = Member.all
  tasks : .threadPool ∈ s.alive → ∀ task ∈ s.session.tasks, ∀ m, CanUse P task m → m ∈ s.alive
  handling : ∀ data ∈ s.handling, s.session.net = .idle ∧
    (∀ m, Reaches P s.session data m → m ∈ s.alive) ∧
    (s.shutdown = true → Endpoint.queued? data = none)
  answer : s.session.net = .publishAcked → .handshakeAcked ∈ s.alive

variable {s s' : Teardown}

theorem touch_of_forall {members : List Member} (alive : ∀ m ∈ members, m ∈ s.alive)
    (next : Option Teardown) : s.touch members next = next :=
  if_pos alive

theorem covered_handle (inv : Covered P s) (taken : step P .handle s = some s') :
    Covered P s' := by
  rw [step, if_neg (by simp [inv.safe])] at taken
  cases hhandling : s.handling with
  | none =>
      rw [hhandling] at taken
      cases taken
  | some data =>
      obtain ⟨hidle, hreaches, hshutdown⟩ := inv.handling data hhandling
      simp only [hhandling] at taken
      rw [touch_of_forall fun m hm => hreaches m (.inl hm)] at taken
      split at taken
      · rename_i hstopped
        rw [hshutdown hstopped.2] at hstopped
        cases hstopped.1
      · obtain ⟨session, hstep, rfl⟩ := Option.map_eq_some_iff.mp taken
        obtain ⟨-, rfl⟩ := Endpoint.deliver_of_step hstep
        refine ⟨inv.safe, inv.intact, ?_, by rintro _ ⟨⟩, ?_⟩
        · intro hpool task hmem m hcan
          rcases mem_tasks_handleRecv hmem with hold | hnew
          · exact inv.tasks hpool task hold m hcan
          · exact hreaches m (.inr ⟨task, hnew, hcan⟩)
        · intro hpublishing
          exact hreaches _ (.inl (uses_of_publishing hidle hpublishing))

theorem covered_task (inv : Covered P s) {index : ℕ} {ok : Bool}
    (taken : step P (.task index ok) s = some s') : Covered P s' := by
  rw [step, if_neg (by simp [inv.safe])] at taken
  split at taken
  · cases taken
  · rename_i task hfound
    split at taken
    · rename_i hpool
      have htask := inv.tasks hpool task (List.mem_of_getElem? hfound)
      rw [touch_of_forall fun m hm => htask m (canUse_of_uses hm)] at taken
      obtain ⟨session, hstep, rfl⟩ := Option.map_eq_some_iff.mp taken
      have hframe := Endpoint.answerFrame_of_step (Endpoint.step_cases hstep).2 rfl
        (by rintro ⟨⟩)
      refine ⟨inv.safe, inv.intact, ?_, ?_, ?_⟩
      · intro _ new hmem m hcan
        rcases mem_tasks_of_step hfound hstep hmem with hold | hnext
        · exact inv.tasks hpool new hold m hcan
        · exact htask m (canUse_of_next hnext hcan)
      · intro data hdata
        obtain ⟨hidle, hreaches, hshutdown⟩ := inv.handling data hdata
        refine ⟨hframe.net.trans hidle, ?_, hshutdown⟩
        intro m hm
        exact hreaches m (reaches_of_acked hframe.acked hm)
      · intro hpublishing
        exact inv.answer (hframe.net.symm.trans hpublishing)
    · cases taken

theorem covered_publish (inv : Covered P s) (taken : step P .publish s = some s') :
    Covered P s' := by
  rw [step, if_neg (by simp [inv.safe])] at taken
  split at taken
  · rename_i hpublishing
    have hflag := inv.answer hpublishing
    rw [touch_of_forall (by simpa using hflag)] at taken
    obtain ⟨session, hstep, rfl⟩ := Option.map_eq_some_iff.mp taken
    cases (Endpoint.step_cases hstep).2 with
    | network =>
        refine ⟨inv.safe, inv.intact, inv.tasks, ?_, by rintro ⟨⟩⟩
        intro data hdata
        rw [(inv.handling data hdata).1] at hpublishing
        cases hpublishing
  · cases taken

/-- As long as `sendFile` or `recvFile` is inside, nothing is destroyed. -/
theorem covered_main (inv : Covered P s) {strategy : Strategy} {waitSnd : UInt32 → Int}
    (taken : step P (.main strategy waitSnd) s = some s') : Covered P s' := by
  rw [step, if_neg (by simp [inv.safe])] at taken
  split at taken
  · cases taken
  · rename_i hinside
    have hall (m : Member) : m ∈ s.alive := by
      rw [inv.intact (Bool.not_eq_true _ ▸ hinside)]
      exact m.mem_all
    obtain ⟨session, hstep, rfl⟩ := Option.map_eq_some_iff.mp taken
    have hframe := Endpoint.answerFrame_of_step (Endpoint.step_cases hstep).2 rfl (by rintro ⟨⟩)
    refine ⟨inv.safe, inv.intact, fun _ _ _ m _ => hall m, ?_, fun _ => hall _⟩
    intro data hdata
    obtain ⟨hidle, -, hshutdown⟩ := inv.handling data hdata
    exact ⟨hframe.net.trans hidle, fun m _ => hall m, hshutdown⟩

theorem covered_destroy (inv : Covered P s) (quiet : Quiet P s .destroy)
    (taken : step P .destroy s = some s') : Covered P s' := by
  rw [step, if_neg (by simp [inv.safe])] at taken
  split at taken
  · cases taken
  rename_i last hlast
  obtain ⟨htasks, hhandling, hanswer⟩ := quiet last hlast
  have hkept {m : Member} (mem : m ∈ s.alive) (other : m ≠ last) : m ∈ s.alive.dropLast := by
    rw [← List.dropLast_append_getLast? last hlast] at mem
    exact (List.mem_append.mp mem).resolve_right fun h => other (List.mem_singleton.mp h)
  split at taken
  · rename_i hpossible
    cases taken
    refine ⟨inv.safe, ?_, ?_, ?_, ?_⟩
    · intro hinside
      rw [show s.left = false from hinside] at hpossible
      cases hpossible.1
    · intro hpool task hmem m hcan
      have hpool' := List.dropLast_subset _ hpool
      apply hkept (inv.tasks hpool' task hmem m hcan)
      rintro rfl
      exact htasks hpool' task hmem hcan
    · intro data hdata
      obtain ⟨hidle, hreaches, hshutdown⟩ := inv.handling data hdata
      refine ⟨hidle, ?_, hshutdown⟩
      intro m hm
      apply hkept (hreaches m hm)
      rintro rfl
      exact hhandling data hdata hm
    · intro hpublishing
      exact hkept (inv.answer hpublishing) (Ne.symm (hanswer hpublishing))
  · cases taken

theorem covered_step (inv : Covered P s) {event : TeardownEvent} (quiet : Quiet P s event)
    (taken : step P event s = some s') : Covered P s' := by
  cases event with
  | handle => exact covered_handle inv taken
  | publish => exact covered_publish inv taken
  | task index ok => exact covered_task inv taken
  | main strategy waitSnd => exact covered_main inv taken
  | destroy => exact covered_destroy inv quiet taken
  | arrive data =>
      rw [step, if_neg (by simp [inv.safe])] at taken
      split at taken
      · rename_i hready
        cases taken
        refine ⟨inv.safe, inv.intact, inv.tasks, ?_, inv.answer⟩
        rintro _ ⟨⟩
        exact ⟨hready.2.1, quiet⟩
      · cases taken
  | leave thrown =>
      rw [step, if_neg (by simp [inv.safe])] at taken
      split at taken
      · cases taken
        exact ⟨inv.safe, by rintro ⟨⟩, inv.tasks, inv.handling, inv.answer⟩
      · cases taken
  | shutdown =>
      rw [step, if_neg (by simp [inv.safe])] at taken
      split at taken
      · cases taken
        refine ⟨inv.safe, inv.intact, inv.tasks, ?_, inv.answer⟩
        intro data hdata
        obtain ⟨hidle, hreaches, -⟩ := inv.handling data hdata
        exact ⟨hidle, hreaches, fun _ => quiet data hdata⟩
      · cases taken

end Quiet

/-- In every run in which the members are destroyed quietly, no destroyed member is used, and no
exception leaves the network thread. -/
theorem safe_of_quiet {P : Platform} {start : Endpoint} {events : List TeardownEvent} {s : Teardown}
    (run : (machine P start).RunUnder (Quiet P) events s) :
    s.misused = false ∧ s.escaped = false := by
  have inv : Covered P s := by
    apply Machine.RunUnder.invariant ?_ ?_ run
    · refine ⟨⟨rfl, rfl⟩, fun _ => rfl, fun _ _ _ m _ => m.mem_all, by rintro _ ⟨⟩, ?_⟩
      exact fun _ => Member.mem_all _
    · intro s event next inv quiet taken
      exact covered_step inv quiet taken
  exact inv.safe

/-! ## A transfer whose session is destroyed in peace, and two that are not over -/

/-- Messages arrive before anything is destroyed, and every thread is idle when something is. -/
def Calm (s : Teardown) : TeardownEvent → Prop
  | .arrive _ => s.alive = Member.all ∧ s.shutdown = false
  | .shutdown => s.handling = none
  | .destroy => s.handling = none ∧ s.session.net = .idle ∧
    ∀ task ∈ s.session.tasks, task.isDone = true
  | _ => True

instance (s : Teardown) (event : TeardownEvent) : Decidable (s.Calm event) := by
  cases event with
  | arrive _ => exact inferInstanceAs (Decidable (_ ∧ _))
  | shutdown => exact inferInstanceAs (Decidable (s.handling = none))
  | destroy =>
      exact inferInstanceAs (Decidable (_ ∧ _ ∧ ∀ task ∈ s.session.tasks, task.isDone = true))
  | _ => exact instDecidableTrue

theorem quiet_of_calm {P : Platform} {s : Teardown} {event : TeardownEvent}
    (calm : s.Calm event) : Quiet P s event := by
  cases event with
  | arrive data =>
      obtain ⟨halive, hopen⟩ := calm
      constructor
      · intro m _
        rw [halive]
        exact m.mem_all
      · intro hstopped
        rw [hopen] at hstopped
        cases hstopped
  | shutdown =>
      intro data hdata
      rw [show s.handling = none from calm] at hdata
      cases hdata
  | destroy =>
      obtain ⟨hhandling, hidle, hdone⟩ := calm
      intro m _
      refine ⟨fun _ task hmem => not_canUse_of_isDone (hdone task hmem), ?_, ?_⟩
      · intro data hdata
        rw [hhandling] at hdata
        cases hdata
      · intro hpublishing
        rw [hidle] at hpublishing
        cases hpublishing
  | _ => trivial

/-- The steps of a session in its teardown. -/
def stepsOf : Event → List TeardownEvent
  | .deliver data => [.arrive data, .handle]
  | .network => [.publish]
  | .task index ok => [.task index ok]
  | .main strategy waitSnd => [.main strategy waitSnd]

/-- A file of one byte is received. -/
def reception : List TeardownEvent :=
  (KnownAnswers.acceptance 1 1 ++ KnownAnswers.storage 1).flatMap stepsOf

/-- `recvFile` returns, and some members are destroyed. -/
def departure (count : ℕ) : List TeardownEvent :=
  (KnownAnswers.mainSteps 1).flatMap stepsOf ++ [.leave false] ++ List.replicate count .destroy

/-- The machine of a receiver. -/
abbrev receiving : Machine Teardown TeardownEvent :=
  machine KnownAnswers.platform KnownAnswers.receiver

theorem safe_of_reception :
    (receiving.reached (reception ++ departure 16 ++ [.shutdown] ++
        List.replicate 3 .destroy)).alive = [] ∧
      (receiving.reached (reception ++ departure 16 ++ [.shutdown] ++
        List.replicate 3 .destroy)).misused = false ∧
      (receiving.reached (reception ++ departure 16 ++ [.shutdown] ++
        List.replicate 3 .destroy)).escaped = false := by
  have hcalm : receiving.RunUnder Calm (reception ++ departure 16 ++ [.shutdown] ++
      List.replicate 3 .destroy) (receiving.reached (reception ++ departure 16 ++ [.shutdown] ++
        List.replicate 3 .destroy)) :=
    Machine.runUnder_reached (by decide +kernel)
  refine ⟨by decide +kernel, ?_⟩
  exact safe_of_quiet (hcalm.mono fun _ _ => quiet_of_calm)

/-- The chunk comes a second time, and `metrics_` is destroyed before its task counts the bytes. -/
def lateTask : List TeardownEvent :=
  reception ++ stepsOf (.deliver KnownAnswers.chunkMessage) ++
    (KnownAnswers.steps 2 5).flatMap stepsOf ++ departure 2 ++ [.task 2 true]

/-- The chunk comes a second time while the pool is shut down. -/
def lateMessage : List TeardownEvent :=
  reception ++ departure 16 ++ [.shutdown] ++ stepsOf (.deliver KnownAnswers.chunkMessage)

theorem unsafe_of_late :
    (receiving.Run lateTask (receiving.reached lateTask) ∧
        (receiving.reached lateTask).misused = true) ∧
      receiving.Run lateMessage (receiving.reached lateMessage) ∧
        (receiving.reached lateMessage).escaped = true := by
  refine ⟨⟨Machine.run_reached ?_, ?_⟩, Machine.run_reached ?_, ?_⟩
  all_goals decide +kernel

end Teardown

end Sxaint.Net
