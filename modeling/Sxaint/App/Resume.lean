/-
# A second session

A transfer has dropped, its session is gone, and a new one receives the same handshake in the
same directory. What is left of the first session are the files that exist. Nothing of its
manifest is, since no session saves or loads one, and the file it was writing is in the way of
the new one like any other.
-/

import Sxaint.Net.KnownAnswers
import Sxaint.Net.Receiver
import Sxaint.Net.Transfer

namespace Sxaint.App

open Sxaint.Core Sxaint.Net Sxaint.Net.Endpoint Transition

variable {P : Platform} {outputDir : Path} {pin : UInt32} {disk : List Path} {hs : Handshake}

/-- A path names none of some files. -/
def Free (P : Platform) (disk : List Path) (target : Path) : Prop :=
  ∀ entry ∈ disk, P.host.sameFile entry.native target.native = false

/-- The manifest is the one of a handshake, and no chunk is stored. -/
structure Fresh (hs : Handshake) (w : Endpoint) : Prop where
  totalChunks : w.currentManifest.totalChunks = hs.totalChunks
  bits : w.currentManifest.completedChunks = List.replicate hs.totalChunks.toNat false

/-- A file was created, under a name that was free. -/
def Created (P : Platform) (disk : List Path) (w : Endpoint) : Prop :=
  ∃ target, Free P disk target ∧ w.disk = disk ++ [target]

/-- How far a session with one handshake has come, over the files that existed before. -/
def Begun (P : Platform) (disk : List Path) (hs : Handshake) (w : Endpoint) : HandshakePc → Prop
  | .enter => w.expectedChunks = 0 ∧ w.disk = disk ∧ w.outbox = []
  | .prepare | .convert | .rename _ _ _ _ => w.disk = disk ∧ w.outbox = []
  | .describe target => Free P disk target ∧ w.disk = disk ∧ w.outbox = []
  | .allot target =>
    Free P disk target ∧ w.currentManifest.totalChunks = hs.totalChunks ∧ w.disk = disk ∧
      w.outbox = []
  | .resetCount target | .preallocate target =>
    Free P disk target ∧ Fresh hs w ∧ w.disk = disk ∧ w.outbox = []
  | .mapWrite _ | .publish _ | .acknowledge => Created P disk w ∧ Fresh hs w ∧ w.outbox = []
  | .accepted => Created P disk w ∧ Fresh hs w ∧ ∃ packed,
      w.currentManifest.packBitfield = some packed ∧
        w.outbox = [(0, ackMessage hs.totalChunks packed)]
  | .answered => False
  | .threw => w.outbox = []

theorem begun_step {w v : Endpoint} {pc next : HandshakePc} (begun : Begun P disk hs w pc)
    (right : hs.pin = w.expectedPin) (taken : HandshakeStep P hs w pc next v) :
    Begun P disk hs v next := by
  cases taken with
  | resumed latched _ => exact (latched begun.1).elim
  | rejected _ wrong => exact (wrong right).elim
  | admitted _ _ => exact begun.2
  | prepared _ | unterminated _ => exact begun
  | searched searching => rcases searching with rfl | ⟨_, _, _, _, rfl⟩ <;> exact begun
  | named free _ =>
      obtain ⟨hdisk, houtbox⟩ := begun
      refine ⟨?_, hdisk, houtbox⟩
      intro entry hentry
      rw [fileExists, hdisk, List.any_eq_false] at free
      exact Bool.not_eq_true _ ▸ free entry hentry
  | described => exact ⟨begun.1, rfl, begun.2⟩
  | allotted => exact ⟨begun.1, ⟨begun.2.1, rfl⟩, begun.2.2⟩
  | recount => exact ⟨begun.1, ⟨begun.2.1.totalChunks, begun.2.1.bits⟩, begun.2.2⟩
  | @created target =>
      obtain ⟨hfree, hfresh, hdisk, houtbox⟩ := begun
      exact ⟨⟨target, hfree, congrArg (· ++ [target]) hdisk⟩,
        ⟨hfresh.totalChunks, hfresh.bits⟩, houtbox⟩
  | mapped | published => exact ⟨begun.1, ⟨begun.2.1.totalChunks, begun.2.1.bits⟩, begun.2.2⟩
  | unmapped => exact begun.2.2
  | @acknowledged packed written =>
      obtain ⟨hcreated, hfresh, houtbox⟩ := begun
      refine ⟨hcreated, ⟨hfresh.totalChunks, hfresh.bits⟩, packed, written, ?_⟩
      rw [sendChunk, houtbox]
      rfl
  | packFault packing _ =>
      rcases packing with ⟨rfl, hlatched⟩ | rfl
      · exact (hlatched begun.1).elim
      · exact ⟨begun.1, ⟨begun.2.1.totalChunks, begun.2.1.bits⟩, begun.2.2⟩
  | threw throwing =>
      cases pc with
      | convert | rename _ _ _ _ => exact begun.2
      | preallocate _ => exact begun.2.2.2
      | _ => cases throwing

/-- What begins does not depend on the list of tasks. -/
theorem begun_of_same {w v : Endpoint} {pc : HandshakePc} (begun : Begun P disk hs w pc)
    (expectedChunks : v.expectedChunks = w.expectedChunks)
    (currentManifest : v.currentManifest = w.currentManifest) (disk' : v.disk = w.disk)
    (outbox : v.outbox = w.outbox) : Begun P disk hs v pc := by
  have hcreated (h : Created P disk w) : Created P disk v := by
    rw [Created, disk']
    exact h
  have hfresh (h : Fresh hs w) : Fresh hs v := by
    constructor
    · rw [currentManifest]
      exact h.totalChunks
    · rw [currentManifest]
      exact h.bits
  cases pc with
  | enter => exact ⟨expectedChunks.trans begun.1, disk'.trans begun.2.1, outbox.trans begun.2.2⟩
  | prepare | convert | rename _ _ _ _ => exact ⟨disk'.trans begun.1, outbox.trans begun.2⟩
  | describe _ => exact ⟨begun.1, disk'.trans begun.2.1, outbox.trans begun.2.2⟩
  | allot _ =>
      refine ⟨begun.1, ?_, disk'.trans begun.2.2.1, outbox.trans begun.2.2.2⟩
      rw [currentManifest]
      exact begun.2.1
  | resetCount _ | preallocate _ =>
      exact ⟨begun.1, hfresh begun.2.1, disk'.trans begun.2.2.1, outbox.trans begun.2.2.2⟩
  | mapWrite _ | publish _ | acknowledge =>
      exact ⟨hcreated begun.1, hfresh begun.2.1, outbox.trans begun.2.2⟩
  | accepted =>
      refine ⟨hcreated begun.1, hfresh begun.2.1, ?_⟩
      rw [currentManifest, outbox]
      exact begun.2.2
  | answered => exact begun
  | threw => exact outbox.trans begun

/-- A session that is sent one message, with a handshake, before and after it has arrived. -/
def Restarted (P : Platform) (disk : List Path) (hs : Handshake) (arrived : List (List UInt8))
    (w : Endpoint) : Prop :=
  arrived = [] ∧ w.tasks = [] ∧ Begun P disk hs w .enter ∨
    arrived ≠ [] ∧ ∃ pc, w.tasks = [.handshake hs pc] ∧ Begun P disk hs w pc

theorem restarted_step {arrived : List (List UInt8)} {data : List UInt8} {event : Event}
    {w w' : Endpoint} (carried : handshakeIn data = some hs)
    (receiver : Receiver hs.pin outputDir w) (inv : Restarted P disk hs arrived w)
    (once : arrived ++ event.delivered?.toList <+: [data]) (taken : Step P w event w') :
    Restarted P disk hs (arrived ++ event.delivered?.toList) w' := by
  have hpool {task : Task} (mem : task ∈ w.tasks) :
      ∃ pc, task = .handshake hs pc ∧ w.tasks = [.handshake hs pc] ∧ arrived ≠ [] ∧
        Begun P disk hs w pc := by
    rcases inv with ⟨-, hnone, -⟩ | ⟨harrived, pc, htasks, hbegun⟩
    · rw [hnone] at mem
      cases mem
    · rw [htasks, List.mem_singleton] at mem
      exact ⟨pc, mem, htasks, harrived, hbegun⟩
  have hsame {v : Endpoint} (tasks : v.tasks = w.tasks)
      (begun : ∀ pc, Begun P disk hs w pc → Begun P disk hs v pc) :
      Restarted P disk hs (arrived ++ []) v := by
    rw [List.append_nil, Restarted, tasks]
    refine inv.imp ?_ ?_
    · rintro ⟨harrived, hnone, hbegun⟩
      exact ⟨harrived, hnone, begun _ hbegun⟩
    · rintro ⟨harrived, pc, htasks, hbegun⟩
      exact ⟨harrived, pc, htasks, begun _ hbegun⟩
  cases taken with
  | @deliver data' _ _ received =>
      have hfirst : arrived = [] ∧ data' = data := by
        have hlength := once.length_le
        simp only [Event.delivered?, Option.toList_some, List.length_append,
          List.length_singleton] at hlength
        obtain rfl := List.eq_nil_of_length_eq_zero (show arrived.length = 0 by omega)
        simpa [Event.delivered?] using once
      obtain ⟨rfl, rfl⟩ := hfirst
      rcases inv with ⟨-, hnone, hbegun⟩ | ⟨harrived, -⟩
      · cases received with
        | handshake found =>
            obtain rfl := Option.some.inj (found.symm.trans carried)
            refine .inr ⟨List.cons_ne_nil _ _, .enter, ?_, hbegun⟩
            rw [submit, hnone]
            rfl
        | chunk other _ | ignored other | ackFault other _ | acked other _ _ | rejected other =>
            cases other.symm.trans carried
      · exact (harrived rfl).elim
  | network => exact hsame rfl fun _ begun => begun_of_same begun rfl rfl rfl rfl
  | @handshake index ok hs' pc' next v found taken =>
      obtain ⟨pc, htask, htasks, harrived, hbegun⟩ := hpool (List.mem_of_getElem? found)
      cases htask
      have hstep := begun_step hbegun receiver.expectedPin.symm taken
      have hframe := taskFrame_of_handshakeStep taken
      have hindex : index = 0 := by
        rw [htasks] at found
        have hlt := (List.getElem?_eq_some_iff.mp found).1
        rw [List.length_singleton] at hlt
        omega
      rw [Event.delivered?, Option.toList_none, List.append_nil]
      · refine .inr ⟨harrived, next, ?_, begun_of_same hstep rfl rfl rfl rfl⟩
        simp only [hframe.tasks, htasks, hindex, List.set_cons_zero]
      · rintro _ ⟨⟩
  | recvChunk found _ | sendChunk found _ =>
      obtain ⟨pc, htask, -⟩ := hpool (List.mem_of_getElem? found)
      cases htask
  | main taken =>
      obtain ⟨-, rfl⟩ := returned_of_mainStep receiver.main taken
      exact hsame rfl fun _ begun => begun_of_same begun rfl rfl rfl rfl

theorem restarted_run {onProgress : Bool} {events : List Event} {w : Endpoint} {data : List UInt8}
    (carried : handshakeIn data = some hs)
    (run : (machine P (recvFile outputDir hs.pin onProgress disk)).Run events w)
    (once : deliveries events <+: [data]) : Restarted P disk hs (deliveries events) w := by
  induction run with
  | start => exact .inl ⟨rfl, rfl, rfl, rfl, rfl⟩
  | @snoc events state next event prior ok taken ih =>
      have hlast : deliveries (events ++ [event]) =
          deliveries events ++ event.delivered?.toList := by
        rw [deliveries, List.filterMap_append]
        cases event <;> rfl
      rw [hlast] at once ⊢
      exact restarted_step carried (receiver_run prior) (ih ((List.prefix_append _ _).trans once))
        once (step_cases taken).2

/-- An acknowledgement of a manifest in which no chunk is stored carries no set bit. -/
theorem clear_of_fresh {w : Endpoint} {packed : List UInt8} {bits : List Bool} (fresh : Fresh hs w)
    (written : w.currentManifest.packBitfield = some packed)
    (carried : ackBits (ackMessage hs.totalChunks packed) = some bits) : true ∉ bits := by
  rw [ackBits_ackMessage] at carried
  rw [BitField.readBits_eq_some (BitField.inside_of_readBits carried)] at carried
  obtain rfl := Option.some.inj carried
  intro hset
  obtain ⟨i, -, hbit⟩ := List.mem_map.mp hset
  rw [BitField.testBit_of_writeBits written, BitField.testBit_replicate_zero, Bool.false_or,
    fresh.bits] at hbit
  have hmem := List.mem_of_getElem? (of_decide_eq_true hbit).2
  cases List.eq_of_mem_replicate hmem

/-- The acknowledgements of the second session mark the chunks that the first one has stored, and
it writes to the file of the first one. -/
structure Resumes (w₁ w₂ : Endpoint) : Prop where
  bits : ∀ frame ∈ w₂.outbox, ackBits frame.2 = some w₁.currentManifest.completedChunks
  target : ∀ path ∈ w₂.disk.drop w₁.disk.length, path ∈ w₁.disk

/-- No transfer is resumed: whatever a session had stored for a handshake, a new one in its
directory that is sent the same handshake again announces that it has nothing, and writes to a
new file. -/
theorem not_resumes {onProgress onProgress' : Bool} {events₁ events₂ : List Event}
    {w₁ w₂ : Endpoint} {data : List UInt8}
    (reflexive : ∀ name, P.host.sameFile name name = true)
    (first : (machine P (recvFile outputDir pin onProgress disk)).Run events₁ w₁)
    (earlier : Task.handshake hs .accepted ∈ w₁.tasks)
    (second : (machine P (recvFile outputDir pin onProgress' w₁.disk)).Run events₂ w₂)
    (carried : handshakeIn data = some hs) (again : deliveries events₂ = [data])
    (answered : w₂.outbox ≠ []) :
    ¬ Resumes w₁ w₂ ∧
      (∀ frame ∈ w₂.outbox, ∀ bits, ackBits frame.2 = some bits → true ∉ bits) ∧
      ∃ target, w₂.disk = w₁.disk ++ [target] ∧ Free P w₁.disk target := by
  have hpin : hs.pin = pin := (receiver_run first).tasks _ earlier (.inr rfl)
  rw [← hpin] at second
  have inv := restarted_run carried second (again ▸ List.prefix_refl _)
  rw [again] at inv
  rcases inv with ⟨hnone, -⟩ | ⟨-, pc, -, hbegun⟩
  · cases hnone
  · have hreached : pc = .accepted := by
      cases pc with
      | accepted => rfl
      | answered => exact hbegun.elim
      | threw => exact (answered hbegun).elim
      | prepare | convert | rename _ _ _ _ => exact (answered hbegun.2).elim
      | enter | describe _ | mapWrite _ | publish _ | acknowledge =>
          exact (answered hbegun.2.2).elim
      | allot _ | resetCount _ | preallocate _ => exact (answered hbegun.2.2.2).elim
    subst hreached
    obtain ⟨⟨target, hfree, hdisk⟩, hfresh, packed, hpacked, houtbox⟩ := hbegun
    refine ⟨?_, ?_, target, hdisk, hfree⟩
    · rintro ⟨-, htarget⟩
      have hold : target ∈ w₁.disk := by
        apply htarget
        rw [hdisk, List.drop_left]
        exact List.mem_singleton_self _
      have hsame := hfree target hold
      rw [reflexive] at hsame
      cases hsame
    · intro frame hframe bits hbits
      rw [houtbox, List.mem_singleton] at hframe
      rw [hframe] at hbits
      exact clear_of_fresh hfresh hpacked hbits

/-- The first session stores the first of two chunks. -/
def dropped : List Event :=
  KnownAnswers.acceptance 1 2 ++ KnownAnswers.storage 1

/-- The first session, when it is destroyed. -/
def firstSession : Endpoint :=
  KnownAnswers.session.reached dropped

/-- The second session looks for a free name once more than the first. -/
def repeated : List Event :=
  KnownAnswers.acceptance 1 2 ++ KnownAnswers.steps 0 1

/-- The machine of the second session. -/
abbrev secondSession : Machine Endpoint Event :=
  machine KnownAnswers.platform (recvFile KnownAnswers.outputDir 123456 false firstSession.disk)

theorem not_resumes_of_dropped : ¬ Resumes firstSession (secondSession.reached repeated) :=
  (not_resumes (fun name => by simp [KnownAnswers.platform, KnownAnswers.host])
    (Machine.run_reached (by decide +kernel))
    (show Task.handshake (Handshake.decode (KnownAnswers.handshakeMessage 123456 1 2)) .accepted ∈
      firstSession.tasks by decide +kernel)
    (Machine.run_reached (by decide +kernel)) (by decide +kernel)
    (show deliveries repeated = [KnownAnswers.handshakeMessage 123456 1 2] by decide +kernel)
    (by decide +kernel)).1

/-- The stored chunk is announced as missing, and a second file is written to. -/
theorem stored_chunk_forgotten :
    KnownAnswers.session.Run dropped firstSession ∧
      firstSession.currentManifest.completedChunks = [true, false] ∧
      secondSession.Run repeated (secondSession.reached repeated) ∧
      (secondSession.reached repeated).outbox = [(0, ackMessage 2 [0])] ∧
      (secondSession.reached repeated).disk = firstSession.disk ++ [⟨"d\\a (1)".toList⟩] ∧
      ¬ Resumes firstSession (secondSession.reached repeated) := by
  refine ⟨Machine.run_reached (by decide +kernel), by decide +kernel,
    Machine.run_reached (by decide +kernel), by decide +kernel, by decide +kernel, ?_⟩
  rintro ⟨hbits, -⟩
  have hclear := hbits (0, ackMessage 2 [0]) (by decide +kernel)
  revert hclear
  decide +kernel

end Sxaint.App
